import Mathlib.Data.List.TakeWhile
import Mathlib.Tactic.IntervalCases

/-!
# JSON objects of numbers

The JSON texts of objects whose members are natural numbers under names that
need no escape, without insignificant whitespace: how such a text is written and
how it is read. Reading is strict, it refuses leading zeros and trailing text,
and gives back every object that has been written.
-/

namespace FlatJson

abbrev Member := List Char × ℕ

def isPlain (c : Char) : Bool := ' ' ≤ c && c ≠ '"' && c ≠ '\\'

def renderMember (m : Member) : List Char :=
  '"' :: (m.1 ++ '"' :: ':' :: Nat.toDigits 10 m.2)

def renderMembers : List Member → List Char
  | [] => ['\x7d']
  | [m] => renderMember m ++ ['\x7d']
  | m :: ms => renderMember m ++ ',' :: renderMembers ms

def render (ms : List Member) : String := String.ofList ('\x7b' :: renderMembers ms)

def readName : List Char → Option (List Char × List Char)
  | '"' :: cs =>
    match cs.dropWhile isPlain with
    | '"' :: rest => some (cs.takeWhile isPlain, rest)
    | _ => none
  | _ => none

def readNumber (cs : List Char) : Option (ℕ × List Char) :=
  let ds := cs.takeWhile Char.isDigit
  if ds = [] ∨ ds.head? = some '0' ∧ 1 < ds.length then none
  else some (Nat.ofDigitChars 10 ds 0, cs.dropWhile Char.isDigit)

def readMember (cs : List Char) : Option (Member × List Char) :=
  match readName cs with
  | some (name, ':' :: rest) => (readNumber rest).map fun r => ((name, r.1), r.2)
  | _ => none

/-- `fuel` bounds the number of members. -/
def readMembers : ℕ → List Char → Option (List Member × List Char)
  | 0, _ => none
  | fuel + 1, cs =>
    match readMember cs with
    | some (m, '\x7d' :: rest) => some ([m], rest)
    | some (m, ',' :: rest) => (readMembers fuel rest).map fun r => (m :: r.1, r.2)
    | _ => none

def parse (text : String) : Option (List Member) :=
  match text.toList with
  | ['\x7b', '\x7d'] => some []
  | '\x7b' :: cs =>
    match readMembers cs.length cs with
    | some (ms, []) => some ms
    | _ => none
  | _ => none

theorem takeWhile_append_stop {α : Type*} {p : α → Bool} {l r : List α}
    (hl : ∀ x ∈ l, p x = true) (hr : ∀ y ∈ r.head?, p y = false) :
    (l ++ r).takeWhile p = l ∧ (l ++ r).dropWhile p = r := by
  rw [List.takeWhile_append_of_pos hl, List.dropWhile_append_of_pos hl]
  cases r with
  | nil => simp
  | cons y r => simp [hr y rfl]

theorem toDigits_head_ne_zero {n : ℕ} (hn : 0 < n) : (Nat.toDigits 10 n).head? ≠ some '0' := by
  induction n using Nat.strong_induction_on with
  | _ n ih =>
    by_cases hlt : n < 10
    · rw [Nat.toDigits_of_lt_base hlt]
      interval_cases n <;> decide
    · have hdiv := ih (n / 10) (by omega) (by omega)
      rw [Nat.toDigits_of_base_le (by decide) (by omega), List.head?_append]
      cases h : (Nat.toDigits 10 (n / 10)).head? with
      | none => exact absurd (List.head?_eq_none_iff.mp h) Nat.toDigits_ne_nil
      | some c => rwa [h] at hdiv

theorem readNumber_toDigits (n : ℕ) {rest : List Char}
    (hrest : ∀ c ∈ rest.head?, c.isDigit = false) :
    readNumber (Nat.toDigits 10 n ++ rest) = some (n, rest) := by
  have hdigits : ∀ c ∈ Nat.toDigits 10 n, c.isDigit = true := fun c hc =>
    Nat.isDigit_of_mem_toDigits (by decide) (by decide) hc
  obtain ⟨htake, hdrop⟩ := takeWhile_append_stop hdigits hrest
  have hstrict : ¬ (Nat.toDigits 10 n = [] ∨
      (Nat.toDigits 10 n).head? = some '0' ∧ 1 < (Nat.toDigits 10 n).length) := by
    rintro (hnil | ⟨hhead, hlong⟩)
    · exact Nat.toDigits_ne_nil hnil
    · rcases Nat.eq_zero_or_pos n with rfl | hn
      · exact absurd hlong (by decide)
      · exact toDigits_head_ne_zero hn hhead
  simp only [readNumber, htake, hdrop, if_neg hstrict, Nat.ofDigitChars_ten_toDigits]

theorem readMember_renderMember {m : Member} (hm : ∀ c ∈ m.1, isPlain c = true)
    {rest : List Char} (hrest : ∀ c ∈ rest.head?, c.isDigit = false) :
    readMember (renderMember m ++ rest) = some (m, rest) := by
  obtain ⟨htake, hdrop⟩ := takeWhile_append_stop (p := isPlain) (l := m.1)
    (r := '"' :: ':' :: (Nat.toDigits 10 m.2 ++ rest)) hm (by simp [isPlain])
  have hname : readName (renderMember m ++ rest) =
      some (m.1, ':' :: (Nat.toDigits 10 m.2 ++ rest)) := by
    simp [renderMember, readName, htake, hdrop]
  simp [readMember, hname, readNumber_toDigits m.2 hrest]

theorem readMembers_renderMembers {ms : List Member} (hne : ms ≠ [])
    (hms : ∀ m ∈ ms, ∀ c ∈ m.1, isPlain c = true) {fuel : ℕ} (hfuel : ms.length ≤ fuel)
    (rest : List Char) : readMembers fuel (renderMembers ms ++ rest) = some (ms, rest) := by
  induction ms generalizing fuel with
  | nil => exact absurd rfl hne
  | cons m ms ih =>
    obtain ⟨fuel, rfl⟩ : ∃ n, fuel = n + 1 := ⟨fuel - 1, by simp at hfuel; omega⟩
    have hm := hms m List.mem_cons_self
    cases ms with
    | nil =>
      rw [renderMembers, List.append_assoc, readMembers,
        readMember_renderMember hm (by simp)]
      rfl
    | cons m' ms =>
      have htail := ih (List.cons_ne_nil m' ms) (fun n hn => hms n (List.mem_cons_of_mem m hn))
        (Nat.le_of_succ_le_succ hfuel)
      rw [renderMembers, List.append_assoc, readMembers,
        readMember_renderMember hm (by simp)]
      · simp [htail]
      · simp

theorem length_le_renderMembers (ms : List Member) : ms.length ≤ (renderMembers ms).length := by
  induction ms using renderMembers.induct with
  | case1 => simp
  | case2 m => simp [renderMembers]
  | case3 m ms hne ih =>
    rw [renderMembers]
    · simp only [List.length_append, List.length_cons]
      omega
    · exact hne

theorem parse_render {ms : List Member} (hms : ∀ m ∈ ms, ∀ c ∈ m.1, isPlain c = true) :
    parse (render ms) = some ms := by
  cases ms with
  | nil => rfl
  | cons m ms =>
    have hread := readMembers_renderMembers (List.cons_ne_nil m ms) hms
      (length_le_renderMembers (m :: ms)) []
    rw [List.append_nil] at hread
    have hquote : ∃ cs, renderMembers (m :: ms) = '"' :: cs := by
      cases ms <;> exact ⟨_, rfl⟩
    obtain ⟨cs, hcs⟩ := hquote
    rw [hcs] at hread
    simp only [parse, render, String.toList_ofList, hcs]
    change (match readMembers ('"' :: cs).length ('"' :: cs) with
      | some (ms, []) => some ms
      | _ => none) = some (m :: ms)
    rw [hread]

end FlatJson
