import Mathlib.Data.List.Basic

/-!
# Messages that tell their length

A message is a head of lines, an empty line and a body, whose length the head
tells.  A reader needs no more than that to take messages apart that follow one
another.
-/

namespace SimpleCache

namespace Messages

/-- The lines up to the first empty one, without their ends, and what is
behind it; `line` is what was read of the current line. -/
def splitHead (line : List UInt8) :
    List UInt8 → Option (List (List UInt8) × List UInt8)
  | [] => none
  | byte :: input =>
      if byte = 10 then
        if line = [] ∨ line = [13] then some ([], input)
        else (splitHead [] input).map fun (lines, rest) =>
          ((if line.getLast? = some 13 then line.dropLast else line) :: lines,
            rest)
      else splitHead (line ++ [byte]) input

variable (length : List (List UInt8) → Option Nat)

/-- The lines, the body and what is behind it, if the message is whole. -/
def readMessage (input : List UInt8) :
    Option (List (List UInt8) × List UInt8 × List UInt8) := do
  let (lines, rest) ← splitHead [] input
  let count ← length lines
  if rest.length < count then none
  else some (lines, rest.take count, rest.drop count)

variable {length} {line input behind : List UInt8} {lines : List (List UInt8)}

/-- A head is read the same whatever follows it. -/
theorem splitHead_append (later : List UInt8)
    (split : splitHead line input = some (lines, behind)) :
    splitHead line (input ++ later) = some (lines, behind ++ later) := by
  induction input generalizing line lines with
  | nil => cases split
  | cons byte input ih =>
      rw [List.cons_append]
      unfold splitHead at split ⊢
      by_cases ends : byte = 10
      · rw [if_pos ends] at split ⊢
        by_cases empty : line = [] ∨ line = [13]
        · rw [if_pos empty] at split ⊢
          obtain ⟨rfl, rfl⟩ := Prod.mk.inj (Option.some.inj split)
          rfl
        · rw [if_neg empty] at split ⊢
          obtain ⟨⟨others, rest⟩, isSplit, same⟩ :=
            Option.map_eq_some_iff.mp split
          obtain ⟨rfl, rfl⟩ := Prod.mk.inj same
          rw [ih isSplit]
          rfl
      · rw [if_neg ends] at split ⊢
        exact ih split

theorem splitHead_text {text : List UInt8} (inner : 10 ∉ text)
    (line input : List UInt8) :
    splitHead line (text ++ input) = splitHead (line ++ text) input := by
  induction text generalizing line with
  | nil => rw [List.nil_append, List.append_nil]
  | cons byte text ih =>
      rw [List.mem_cons, not_or] at inner
      rw [List.cons_append, splitHead, if_neg (Ne.symm inner.1), ih inner.2,
        List.append_assoc, List.singleton_append]

/-- A line that is not empty is the first of the head. -/
theorem splitHead_line {text : List UInt8} (nonempty : text ≠ [])
    (inner : 10 ∉ text) (input : List UInt8) :
    splitHead [] (text ++ 13 :: 10 :: input) =
      (splitHead [] input).map fun (lines, rest) => (text :: lines, rest) := by
  have notEmpty : ¬(text ++ [13] = [] ∨ text ++ [13] = [13]) := by
    rintro (empty | only)
    · exact absurd empty (by simp)
    · exact nonempty (List.append_left_eq_self.mp only)
  have all : 10 ∉ text ++ [(13 : UInt8)] := by
    rw [List.mem_append, not_or]
    exact ⟨inner, by decide⟩
  have whole : text ++ 13 :: 10 :: input = text ++ [13] ++ 10 :: input := by
    rw [List.append_assoc, List.singleton_append]
  rw [whole, splitHead_text all, List.nil_append, splitHead, if_pos rfl,
    if_neg notEmpty, List.getLast?_concat, if_pos rfl, List.dropLast_concat]

theorem splitHead_empty (input : List UInt8) :
    splitHead [] (13 :: 10 :: input) = some ([], input) := by
  rw [splitHead, if_neg (by decide), splitHead, if_pos rfl, if_pos]
  exact Or.inr rfl

theorem splitHead_lines {head : List (List UInt8)}
    (inner : ∀ text ∈ head, text ≠ [] ∧ 10 ∉ text)
    (rest : List UInt8) :
    splitHead [] (head.flatMap (· ++ [13, 10]) ++ 13 :: 10 :: rest) =
      some (head, rest) := by
  induction head with
  | nil => exact splitHead_empty rest
  | cons text head ih =>
      rw [List.forall_mem_cons] at inner
      obtain ⟨nonempty, noNewline⟩ := inner.1
      have isFirst := splitHead_line nonempty noNewline
        (head.flatMap (· ++ [13, 10]) ++ 13 :: 10 :: rest)
      rw [List.flatMap_cons, List.append_assoc, List.append_assoc]
      exact isFirst.trans (by rw [ih inner.2]; rfl)

/-- A message that tells its length is whole. -/
theorem readMessage_lines {head : List (List UInt8)} {body : List UInt8}
    (inner : ∀ text ∈ head, text ≠ [] ∧ 10 ∉ text)
    (tells : length head = some body.length) :
    readMessage length (head.flatMap (· ++ [13, 10]) ++ 13 :: 10 :: body) =
      some (head, body, []) := by
  unfold readMessage
  rw [splitHead_lines inner]
  simp only [Option.bind_eq_bind, Option.bind_some, tells]
  rw [if_neg (Nat.lt_irrefl _), List.take_length, List.drop_length]

/-- A message is read the same whatever follows it. -/
theorem readMessage_append {body : List UInt8} (later : List UInt8)
    (whole : readMessage length input = some (lines, body, behind)) :
    readMessage length (input ++ later) =
      some (lines, body, behind ++ later) := by
  unfold readMessage at whole ⊢
  simp only [Option.bind_eq_bind, Option.bind_eq_some_iff, Prod.exists]
    at whole
  obtain ⟨head, rest, split, count, isLength, rest_⟩ := whole
  rw [splitHead_append later split]
  simp only [Option.bind_eq_bind, Option.bind_some, isLength]
  split at rest_
  · cases rest_
  · next enough =>
      obtain ⟨rfl, isBody⟩ := Prod.mk.inj (Option.some.inj rest_)
      obtain ⟨rfl, rfl⟩ := Prod.mk.inj isBody
      rw [if_neg (by rw [List.length_append]; omega),
        List.take_append_of_le_length (by omega),
        List.drop_append_of_le_length (by omega)]

end Messages

end SimpleCache
