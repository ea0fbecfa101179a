import SolacePubSub.ProducerAccounting
import SolacePubSub.TopicRouting
import SolacePubSub.SharedQueue
import SolacePubSub.TimedRuns
import SolacePubSub.MessageLag
import SolacePubSub.MessageOrigin
import SolacePubSub.SilentReceiver
import SolacePubSub.SettledTotals
import SolacePubSub.LagRecording
import SolacePubSub.StandbyLag
import SolacePubSub.Throughput
