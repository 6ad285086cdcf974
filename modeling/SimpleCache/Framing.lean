import SimpleCache.Delivery
import SimpleCache.Library.Messages
import SimpleCache.RoundTrip

/-!
# Responses on a connection that is kept

A client reads responses from a connection that stays open by their heads: the
`Content-Length` of each tells where the next one starts.
-/

namespace SimpleCache

open Messages

variable {kh : KHash}

/-- The number of the first `Content-Length` line. -/
def announced (lines : List Bytes) : Option Nat :=
  lines.findSome? fun line =>
    let name := printText "Content-Length: "
    let digits := line.drop name.length
    if name.isPrefixOf line ∧ digits ≠ [] ∧ digits.all isDigit then
      some (digitsValue digits)
    else none

/-- The templates that are a response of their own. -/
def Template.whole : Template → Bool
  | .headers200 | .newline | .headers200ConClose => false
  | _ => true

theorem readMessage_template {kind : Template} (whole : kind.whole = true) :
    ∃ lines body,
      readMessage announced (printText kind.text) = some (lines, body, []) := by
  have read : (readMessage announced (printText kind.text)).any
      (fun message => message.2.2.isEmpty) = true := by
    cases kind with
    | headers200 | newline | headers200ConClose => cases whole
    | _ => decide +kernel
  obtain ⟨⟨lines, body, rest⟩, isRead, nothing⟩ := (Option.any_eq_true _ _).mp read
  obtain rfl := List.isEmpty_iff.mp nothing
  exact ⟨lines, body, isRead⟩

theorem announced_skip {line : Bytes} {lines : List Bytes}
    (other : (printText "Content-Length: ").isPrefixOf line = false) :
    announced (line :: lines) = announced lines := by
  unfold announced
  rw [List.findSome?_cons]
  dsimp only
  rw [if_neg (fun both => by rw [other] at both; exact absurd both.1 (by simp))]

theorem announced_number (number : Nat) (lines : List Bytes) :
    announced ((printText "Content-Length: " ++ printNat number) :: lines) =
      some number := by
  unfold announced
  rw [List.findSome?_cons]
  dsimp only
  rw [List.drop_left, digitsValue_printNat,
    if_pos ⟨List.isPrefixOf_iff_prefix.mpr (List.prefix_append _ _),
      printNat_ne_nil number, List.all_eq_true.mpr (isDigit_printNat number)⟩]

/-- A line of a text and a number. -/
theorem inner_numberLine {name number : Bytes}
    (text : name ≠ [] ∧ 10 ∉ name) (inner : 10 ∉ number) :
    name ++ number ≠ [] ∧ 10 ∉ name ++ number := by
  refine ⟨List.append_ne_nil_of_left_ne_nil text.1 _, ?_⟩
  rw [List.mem_append, not_or]
  exact ⟨text.2, inner⟩

theorem newline_notMem_printNat (number : Nat) : 10 ∉ printNat number :=
  fun member => absurd (isDigit_printNat number _ member) (by decide)

theorem newline_notMem_printInt (number : Int) : 10 ∉ printInt number := by
  have digits := newline_notMem_printNat number.natAbs
  unfold printInt
  split
  · rw [List.mem_cons, not_or]
    exact ⟨by decide, digits⟩
  · exact digits

/-- Statistics are read back with the length that they announce. -/
theorem readMessage_stats (build : Build) (numbers : Stats) :
    ∃ lines, readMessage announced (Chunk.bytes build (.stats numbers)) =
      some (lines, numbers.bytes build, []) := by
  refine ⟨[printText "HTTP/1.1 200 OK", printText "Connection: Keep-Alive",
    printText "Content-Length: " ++ printNat (numbers.bytes build).length], ?_⟩
  have whole : Chunk.bytes build (.stats numbers) =
      [printText "HTTP/1.1 200 OK", printText "Connection: Keep-Alive",
        printText "Content-Length: " ++
          printNat (numbers.bytes build).length].flatMap (· ++ [13, 10]) ++
        13 :: 10 :: numbers.bytes build := by
    have head : printText
        "HTTP/1.1 200 OK\r\nConnection: Keep-Alive\r\nContent-Length: " =
      printText "HTTP/1.1 200 OK" ++ [13, 10] ++
        (printText "Connection: Keep-Alive" ++ [13, 10] ++
          printText "Content-Length: ") := by decide +kernel
    have empty : printText "\r\n\r\n" = [13, 10, 13, 10] := by decide +kernel
    unfold Chunk.bytes
    dsimp only
    rw [head, empty]
    simp
  rw [whole]
  refine readMessage_lines ?_ ?_
  · simp only [List.forall_mem_cons, List.not_mem_nil, false_implies,
      implies_true, and_true]
    exact ⟨by decide +kernel, by decide +kernel,
      inner_numberLine (by decide +kernel) (newline_notMem_printNat _)⟩
  · rw [announced_skip (by decide +kernel), announced_skip (by decide +kernel),
      announced_number]

/-- What the socket gets of chunks that it accepts. -/
def printChunks (build : Build) (chunks : List Chunk) : Bytes :=
  chunks.flatMap (Chunk.bytes build)

/-- A chunk that is a response of its own. -/
def Chunk.Whole : Chunk → Prop
  | .template kind => kind.whole = true
  | .stats _ => True
  | _ => False

/-- The head of a value, with the line that ends it. -/
def valueChunks (seconds : Int) (length : Nat) : List Chunk :=
  [.template .headers200, .xTtl seconds, .contentLength (i32 length),
    .template .newline]

theorem readMessage_whole (build : Build) {chunk : Chunk}
    (whole : chunk.Whole) :
    ∃ lines body, readMessage announced (printChunks build [chunk]) =
      some (lines, body, []) := by
  have one : printChunks build [chunk] = chunk.bytes build :=
    List.flatMap_singleton ..
  rw [one]
  cases chunk with
  | template kind => exact readMessage_template whole
  | stats numbers =>
      obtain ⟨lines, read⟩ := readMessage_stats build numbers
      exact ⟨lines, _, read⟩
  | _ => exact whole.elim

/-- The lines of the head of a value. -/
def valueLines (seconds : Int) (length : Nat) : List Bytes :=
  [printText "HTTP/1.1 200 OK", printText "Connection: Keep-Alive",
    printText "X-Ttl: " ++ printInt seconds,
    printText "Content-Length: " ++ printNat length]

theorem printChunks_value (build : Build) (seconds : Int) {length : Nat}
    (small : length < 2147483648) (rest : Bytes) :
    printChunks build (valueChunks seconds length) ++ rest =
      (valueLines seconds length).flatMap (· ++ [13, 10]) ++
        13 :: 10 :: rest := by
  have number : printInt (i32 length) = printNat length := by
    have same : i32 length = length := by
      unfold i32
      omega
    rw [same]
    unfold printInt
    rw [if_neg (by omega)]
    rfl
  have head : printText Template.headers200.text =
      printText "HTTP/1.1 200 OK" ++ [13, 10] ++
        (printText "Connection: Keep-Alive" ++ [13, 10]) := by decide +kernel
  have newline : printText "\r\n" = [13, 10] := by decide +kernel
  have empty : printText Template.newline.text = [13, 10] := by decide +kernel
  simp only [printChunks, valueChunks, valueLines, Chunk.bytes,
    List.flatMap_cons, List.flatMap_nil, head, empty, newline, number,
    List.append_assoc, List.cons_append, List.nil_append]

theorem inner_valueLines (seconds : Int) (length : Nat) :
    ∀ line ∈ valueLines seconds length,
      line ≠ [] ∧ 10 ∉ line := by
  simp only [valueLines, List.forall_mem_cons, List.not_mem_nil,
    false_implies, implies_true, and_true]
  exact ⟨by decide +kernel, by decide +kernel,
    inner_numberLine (by decide +kernel) (newline_notMem_printInt _),
    inner_numberLine (by decide +kernel) (newline_notMem_printNat _)⟩

theorem announced_valueLines (seconds : Int) (length : Nat) :
    announced (valueLines seconds length) = some length := by
  unfold valueLines
  rw [announced_skip (by decide +kernel), announced_skip (by decide +kernel),
    announced_skip rfl, announced_number]

/-- A value that is as long as its head announces is read whole. -/
theorem readMessage_value (build : Build) (seconds : Int) {body : Bytes}
    (small : body.length < 2147483648) :
    readMessage announced
        (printChunks build (valueChunks seconds body.length) ++ body) =
      some (valueLines seconds body.length, body, []) := by
  rw [printChunks_value build seconds small]
  exact readMessage_lines (inner_valueLines seconds body.length)
    (announced_valueLines seconds body.length)

theorem splitHead_value (build : Build) (seconds : Int) {length : Nat}
    (small : length < 2147483648) (rest : Bytes) :
    splitHead [] (printChunks build (valueChunks seconds length) ++ rest) =
      some (valueLines seconds length, rest) := by
  rw [printChunks_value build seconds small]
  exact splitHead_lines (inner_valueLines seconds length) rest

end SimpleCache
