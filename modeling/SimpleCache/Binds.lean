import SimpleCache.Index
import Mathlib.Data.List.TakeWhile

/-!
# Bind lists

`parse_binds` splits the argument of the bind options into addresses with a
state machine over its characters, and writes NULs into its copy of the
argument where a part ends.
-/

namespace SimpleCache

namespace Binds

/-- `scache_bind.af`. -/
inductive Family
  | unspec
  | inet
  | inet6
  | unix
  deriving DecidableEq

/-- `scache_bind`, with the text that `inet_pton` converts in the place of the
address it stores. -/
structure Bind where
  af : Family
  addr : Bytes
  port : Int
  transparent : Bool
  deriving DecidableEq

inductive BindParseState
  | first
  | ipv4
  | ipv6
  | unixPath
  | port
  deriving DecidableEq

/-- A path that does not fit `addr` is written behind it. -/
inductive ParseFault
  | overrun
  deriving DecidableEq

/-- The variables of the loop; `binds` is the allocated array. -/
structure Parser where
  optarg : Nat → UInt8
  state : BindParseState
  stateStart : Nat
  binds : Nat → Bind
  current : Nat

def addrSize : Nat := 110

/-- The string that starts at a character of the argument. -/
def stringAt (len : Nat) (optarg : Nat → UInt8) (start : Nat) : Bytes :=
  ((List.range (len + 1 - start)).map fun offset =>
    optarg (start + offset)).takeWhile (· != 0)

def atoi (text : Bytes) : Int := ((scanInt32 text).map Prod.fst).getD 0

namespace Parser

def setBind (parser : Parser) (change : Bind → Bind) : Parser :=
  { parser with
    binds := Function.update parser.binds parser.current
      (change (parser.binds parser.current)) }

def nextBind (parser : Parser) (start : Nat) : Parser :=
  { parser with
    current := parser.current + 1
    state := .first
    stateStart := start }

/-- The states `ipv4` and `ipv6`.  `inet_pton` fails only for a family that it
does not know. -/
def stepAddress (len : Nat) (parser : Parser) (i : Nat) : Parser :=
  if parser.optarg i = charByte ':' then
    let optarg := Function.update parser.optarg i 0
    { parser.setBind fun bind =>
        { bind with addr := stringAt len optarg parser.stateStart } with
      optarg
      state := .port
      stateStart := i + 1 }
  else parser

def stepUnixPath (parser : Parser) (i : Nat) : Except ParseFault Parser :=
  if parser.optarg i = 0 ∨ parser.optarg i = charByte ',' then
    let length := i - parser.stateStart
    if addrSize < length then throw .overrun
    else
      let path := (List.range length).map fun offset =>
        parser.optarg (parser.stateStart + offset)
      let filled := parser.setBind fun bind =>
        { bind with addr := path, port := 0 }
      if parser.optarg i = charByte ',' then return filled.nextBind (i + 1)
      else return filled
  else return parser

def stepPort (len : Nat) (parser : Parser) (i : Nat) : Parser :=
  let copy := parser.optarg i
  if copy = charByte 't' then
    parser.setBind fun bind => { bind with transparent := true }
  else if copy = 0 ∨ copy = charByte ',' then
    let place :=
      if (parser.binds parser.current).transparent then i - 1 else i
    let optarg := Function.update parser.optarg place 0
    let filled : Parser :=
      { parser.setBind fun bind =>
          { bind with port := atoi (stringAt len optarg parser.stateStart) } with
        optarg }
    if copy = charByte ',' then filled.nextBind (i + 1) else filled
  else parser

/-- One pass of the loop, with the index it leaves behind. -/
def step (len : Nat) (parser : Parser) (i : Nat) :
    Except ParseFault (Parser × Nat) :=
  match parser.state with
  | .first =>
      if parser.optarg i = charByte '[' then
        return ({ parser.setBind fun bind => { bind with af := .inet6 } with
          state := .ipv6
          stateStart := parser.stateStart + 1 }, i)
      else if parser.optarg i = charByte 'u' ∧
          parser.optarg (i + 1) = charByte ':' then
        return ({ parser.setBind fun bind => { bind with af := .unix } with
          state := .unixPath
          stateStart := parser.stateStart + 2 }, i + 1)
      else
        return (stepAddress len
          { parser.setBind fun bind => { bind with af := .inet } with
            state := .ipv4 } i, i)
  | .ipv4 => return (parser.stepAddress len i, i)
  | .ipv6 => return (parser.stepAddress len i, i)
  | .unixPath => do
      let parser ← parser.stepUnixPath i
      return (parser, i)
  | .port => return (parser.stepPort len i, i)

/-- The loop, for at most `passes` passes. -/
def loop (len : Nat) : Nat → Nat → Parser → Except ParseFault Parser
  | 0, _, parser => return parser
  | passes + 1, i, parser =>
      if len < i then return parser
      else do
        let (parser, i) ← parser.step len i
        loop len passes (i + 1) parser

end Parser

/-- The parser before the loop, over zeroed memory. -/
def start (text : Bytes) : Parser where
  optarg := fun i => text.getD i 0
  state := .first
  stateStart := 0
  binds := fun _ => ⟨.unspec, [], 0, false⟩
  current := 0

def parseBinds (text : Bytes) : Except ParseFault (List Bind) := do
  let num := text.count (charByte ',') + 1
  let parser ← (start text).loop text.length (text.length + 1) 0
  return (List.range num).map parser.binds

/-- One bind specification. -/
inductive Item
  | inet (addr port : Bytes) (transparent : Bool)
  | inet6 (addr port : Bytes) (transparent : Bool)
  | unix (path : Bytes)

/-- A colon, a port and the suffix. -/
def portText (port : Bytes) (transparent : Bool) : Bytes :=
  charByte ':' :: (port ++ if transparent then [charByte 't'] else [])

namespace Item

def text : Item → Bytes
  | .inet addr port transparent => addr ++ portText port transparent
  | .inet6 addr port transparent =>
      charByte '[' :: (addr ++ charByte ']' :: portText port transparent)
  | .unix path => charByte 'u' :: charByte ':' :: path

/-- What the specification says. -/
def bind : Item → Bind
  | .inet addr port transparent => ⟨.inet, addr, digitsValue port, transparent⟩
  | .inet6 addr port transparent => ⟨.inet6, addr, digitsValue port, transparent⟩
  | .unix path => ⟨.unix, path, 0, false⟩

def isInet6 : Item → Prop
  | .inet6 _ _ _ => True
  | _ => False

/-- A decimal number of an `int`. -/
structure IsPort (port : Bytes) : Prop where
  digits : ∀ digit ∈ port, isDigit digit = true
  nonempty : port ≠ []
  small : digitsValue port < 2147483648

/-- Neither a separator nor the end of a string. -/
def Plain (bytes : Bytes) : Prop :=
  ∀ byte ∈ bytes, byte ≠ charByte ',' ∧ byte ≠ 0

instance (bytes : Bytes) : Decidable (Plain bytes) :=
  inferInstanceAs (Decidable (∀ byte ∈ bytes, _ ∧ _))

/-- IPv4 addresses are digits and dots, IPv6 addresses stand in brackets, and
paths fit. -/
def WellFormed : Item → Prop
  | .inet addr port _ =>
      (∀ byte ∈ addr, isDigit byte = true ∨ byte = charByte '.') ∧ IsPort port
  | .inet6 addr port _ =>
      (Plain addr ∧ charByte ']' ∉ addr) ∧ IsPort port
  | .unix path => Plain path ∧ path.length ≤ addrSize

end Item

/-- Specifications with commas between them. -/
def listText : List Item → Bytes
  | [] => []
  | [item] => item.text
  | item :: items => item.text ++ charByte ',' :: listText items

/-- The argument from a character on, with its end. -/
def At (optarg : Nat → UInt8) (i : Nat) (bytes : Bytes) : Prop :=
  ∀ offset, optarg (i + offset) = bytes.getD offset 0

theorem At.head {optarg : Nat → UInt8} {i : Nat} {byte : UInt8} {bytes : Bytes}
    (at_ : At optarg i (byte :: bytes)) : optarg i = byte := at_ 0

theorem At.tail {optarg : Nat → UInt8} {i : Nat} {byte : UInt8} {bytes : Bytes}
    (at_ : At optarg i (byte :: bytes)) : At optarg (i + 1) bytes := by
  intro offset
  have next := at_ (offset + 1)
  rw [List.getD_cons_succ] at next
  rw [← next]
  congr 1
  omega

theorem At.drop {optarg : Nat → UInt8} {i : Nat} {first second : Bytes}
    (at_ : At optarg i (first ++ second)) :
    At optarg (i + first.length) second := by
  induction first generalizing i with
  | nil => exact at_
  | cons byte first ih =>
      have next := ih at_.tail
      rw [List.length_cons]
      have place : i + 1 + first.length = i + (first.length + 1) := by omega
      rwa [place] at next

theorem At.getElem {optarg : Nat → UInt8} {i offset : Nat}
    {first second : Bytes} (at_ : At optarg i (first ++ second))
    (inRange : offset < first.length) : optarg (i + offset) = first[offset] := by
  rw [at_ offset, List.getD_eq_getElem?_getD,
    List.getElem?_append_left inRange, List.getElem?_eq_getElem inRange,
    Option.getD_some]

/-- A NUL before the rest does not change it. -/
theorem At.update {optarg : Nat → UInt8} {i place : Nat} {bytes : Bytes}
    (at_ : At optarg i bytes) (before : place < i) :
    At (Function.update optarg place 0) i bytes := by
  intro offset
  rw [Function.update_of_ne (by omega)]
  exact at_ offset

/-- A string ends at its NUL. -/
theorem stringAt_eq {len start : Nat} {optarg : Nat → UInt8} {piece : Bytes}
    (reads : ∀ offset (inRange : offset < piece.length),
      optarg (start + offset) = piece[offset])
    (plain : ∀ byte ∈ piece, byte ≠ 0)
    (ends : optarg (start + piece.length) = 0)
    (inside : start + piece.length ≤ len) :
    stringAt len optarg start = piece := by
  have front : ((List.range piece.length).map fun offset =>
      optarg (start + offset)) = piece := by
    apply List.ext_getElem
    · simp
    · intro offset _ inRange
      simpa using reads offset inRange
  obtain ⟨more, isMore⟩ : ∃ more, len + 1 - start = piece.length + (more + 1) :=
    ⟨len - start - piece.length, by omega⟩
  unfold stringAt
  rw [isMore, List.range_add, List.map_append, front,
    List.takeWhile_append_of_pos fun byte member => by
      simpa using plain byte member,
    List.range_succ_eq_map]
  simp [ends]

namespace Parser

variable {len i : Nat} {parser final : Parser}

/-- The loop ends with a parser, if it is given enough passes. -/
def Runs (len i : Nat) (parser final : Parser) : Prop :=
  ∀ passes, len + 1 - i ≤ passes → parser.loop len passes i = .ok final

theorem Runs.done (ended : len < i) : Runs len i parser parser := by
  intro passes _
  cases passes with
  | zero => rfl
  | succ passes =>
      unfold loop
      rw [if_pos ended]
      rfl

theorem Runs.step {next : Parser} {left : Nat} (inside : i ≤ len)
    (stepped : parser.step len i = .ok (next, left)) (forward : i ≤ left)
    (runs : Runs len (left + 1) next final) : Runs len i parser final := by
  intro passes enough
  obtain ⟨passes, rfl⟩ : ∃ fewer, passes = fewer + 1 := ⟨passes - 1, by omega⟩
  unfold loop
  rw [if_neg (by omega), stepped]
  exact runs passes (by omega)

theorem setBind_setBind (first second : Bind → Bind) :
    (parser.setBind first).setBind second =
      parser.setBind fun bind => second (first bind) := by
  unfold setBind
  simp

theorem setBind_self {change : Bind → Bind}
    (same : change (parser.binds parser.current) =
      parser.binds parser.current) : parser.setBind change = parser := by
  unfold setBind
  rw [same, Function.update_eq_self]

/-- The address is passed. -/
theorem Runs.address {addr rest : Bytes}
    (state : parser.state = .ipv4 ∨ parser.state = .ipv6)
    (at_ : At parser.optarg i (addr ++ rest))
    (plain : ∀ byte ∈ addr, byte ≠ charByte ':')
    (inside : i + addr.length ≤ len + 1)
    (runs : Runs len (i + addr.length) parser final) :
    Runs len i parser final := by
  induction addr generalizing i with
  | nil => exact runs
  | cons byte addr ih =>
      rw [List.length_cons] at inside runs
      have place : i + 1 + addr.length = i + (addr.length + 1) := by omega
      have different : parser.optarg i ≠ charByte ':' := by
        rw [at_.head]
        exact plain byte List.mem_cons_self
      have same : parser.stepAddress len i = parser := by
        unfold stepAddress
        rw [if_neg different]
      have stepped : parser.step len i = .ok (parser, i) := by
        unfold Parser.step
        rcases state with state | state <;> rw [state, same] <;> rfl
      refine Runs.step (by omega) stepped le_rfl (ih at_.tail
        (fun other member => plain other (List.mem_cons_of_mem _ member))
        (by omega) ?_)
      rw [place]
      exact runs

/-- What the characters of a port leave behind. -/
def sees (parser : Parser) (bytes : Bytes) : Parser :=
  parser.setBind fun bind =>
    { bind with
      transparent := bind.transparent || bytes.contains (charByte 't') }

/-- The port is passed. -/
theorem Runs.port {port rest : Bytes} (state : parser.state = .port)
    (at_ : At parser.optarg i (port ++ rest)) (plain : Item.Plain port)
    (inside : i + port.length ≤ len + 1)
    (runs : Runs len (i + port.length) (parser.sees port) final) :
    Runs len i parser final := by
  induction port generalizing i parser with
  | nil =>
      have same : parser.sees [] = parser := setBind_self (by simp)
      rw [same] at runs
      exact runs
  | cons byte port ih =>
      rw [List.length_cons] at inside runs
      have place : i + 1 + port.length = i + (port.length + 1) := by omega
      have plainRest : Item.Plain port := fun other member =>
        plain other (List.mem_cons_of_mem _ member)
      have here := plain byte List.mem_cons_self
      have stepped : parser.step len i =
          .ok (parser.stepPort len i, i) := by
        unfold Parser.step
        rw [state]
        rfl
      have next : parser.stepPort len i = parser.sees [byte] := by
        unfold stepPort
        dsimp only
        rw [at_.head]
        by_cases isT : byte = charByte 't'
        · rw [if_pos isT]
          unfold sees
          simp [isT]
        · rw [if_neg isT, if_neg (by simpa using ⟨here.2, here.1⟩)]
          exact (setBind_self (by simp [Ne.symm isT])).symm
      rw [next] at stepped
      refine Runs.step (by omega) stepped le_rfl
        (@ih _ (parser.sees [byte]) state at_.tail plainRest
          (by omega) ?_)
      rw [place]
      have both : (parser.sees [byte]).sees port = parser.sees (byte :: port) := by
        unfold sees
        rw [setBind_setBind]
        simp [Bool.or_assoc]
      rw [both]
      exact runs

/-- The colon ends the address. -/
theorem stepAddress_colon {addr rest : Bytes}
    (at_ : At parser.optarg parser.stateStart (addr ++ charByte ':' :: rest))
    (plain : ∀ byte ∈ addr, byte ≠ 0)
    (place : i = parser.stateStart + addr.length) (inside : i ≤ len) :
    parser.stepAddress len i =
      { parser.setBind fun bind => { bind with addr } with
        optarg := Function.update parser.optarg i 0
        state := .port
        stateStart := i + 1 } := by
  have colon : parser.optarg i = charByte ':' := by
    rw [place]
    exact at_.drop.head
  have text : stringAt len (Function.update parser.optarg i 0)
      parser.stateStart = addr := by
    refine stringAt_eq ?_ plain ?_ (by omega)
    · intro offset inRange
      rw [Function.update_of_ne (by omega)]
      exact at_.getElem inRange
    · rw [← place, Function.update_self]
  unfold stepAddress
  rw [if_pos colon]
  dsimp only
  rw [text]

/-- A comma or the end of the argument. -/
def Ends (rest : Bytes) : Prop := rest = [] ∨ ∃ more, rest = charByte ',' :: more

/-- What follows a specification is set up for the next one. -/
def Prepared (next : Parser) (current i : Nat) (rest : Bytes) : Prop :=
  ∀ more, rest = charByte ',' :: more →
    next.state = .first ∧ next.stateStart = i + 1 ∧
      next.current = current + 1 ∧ At next.optarg (i + 1) more

/-- The end of a port. -/
theorem stepPort_end {rest : Bytes} (at_ : At parser.optarg i rest)
    (ends : Ends rest) :
    ∃ place, place = (if (parser.binds parser.current).transparent then i - 1
        else i) ∧
      (parser.stepPort len i).binds =
        (parser.setBind fun bind =>
          { bind with
            port := atoi (stringAt len
              (Function.update parser.optarg place 0)
                parser.stateStart) }).binds ∧
      Prepared (parser.stepPort len i) parser.current i rest := by
  refine ⟨_, rfl, ?_⟩
  have notT : charByte ',' ≠ charByte 't' ∧ (0 : UInt8) ≠ charByte 't' ∧
      (0 : UInt8) ≠ charByte ',' := by decide
  unfold stepPort
  dsimp only
  rcases ends with rfl | ⟨more, rfl⟩
  · have nul : parser.optarg i = 0 := at_ 0
    rw [nul, if_neg notT.2.1, if_pos (Or.inl rfl), if_neg notT.2.2]
    exact ⟨rfl, fun more isMore =>
      absurd isMore (List.cons_ne_nil _ _).symm⟩
  · rw [at_.head, if_neg notT.1, if_pos (Or.inr rfl), if_pos rfl]
    refine ⟨rfl, fun other isMore => ⟨rfl, rfl, rfl, ?_⟩⟩
    obtain ⟨-, rfl⟩ := List.cons.inj isMore
    refine At.update at_.tail ?_
    split <;> omega

/-- An address, a colon and a port. -/
theorem runs_addressPort {addr after rest : Bytes}
    (state : parser.state = .ipv4 ∨ parser.state = .ipv6)
    (atStart : parser.stateStart = i)
    (at_ : At parser.optarg i (addr ++ charByte ':' :: (after ++ rest)))
    (noColon : ∀ byte ∈ addr, byte ≠ charByte ':')
    (plainAddr : ∀ byte ∈ addr, byte ≠ 0)
    (plainPort : Item.Plain after) (ends : Ends rest)
    (isLen : len = i + (addr ++ charByte ':' :: (after ++ rest)).length)
    (blank : (parser.binds parser.current).transparent = false) :
    ∃ next port, next.binds = (parser.setBind fun bind =>
        { bind with
          addr
          port
          transparent := after.contains (charByte 't') }).binds ∧
      (∀ digits transparent, Item.IsPort digits →
        after = digits ++ (if transparent = true then [charByte 't'] else []) →
          port = atoi digits) ∧
      Prepared next parser.current (i + addr.length + 1 + after.length) rest ∧
      ∀ final, Runs len (i + addr.length + 1 + after.length + 1) next final →
        Runs len i parser final := by
  rw [List.length_append, List.length_cons, List.length_append] at isLen
  have atColon := at_.drop
  have atAfter := atColon.tail
  have atEnd := atAfter.drop
  let coloned : Parser :=
    { parser.setBind fun bind => { bind with addr } with
      optarg := Function.update parser.optarg (i + addr.length) 0
      state := .port
      stateStart := i + addr.length + 1 }
  have isColoned : parser.stepAddress len (i + addr.length) = coloned :=
    stepAddress_colon (by rw [atStart]; exact at_) plainAddr
      (by rw [atStart]) (by omega)
  let seen := coloned.sees after
  have seenOptarg : seen.optarg =
      Function.update parser.optarg (i + addr.length) 0 := rfl
  have atAfterSeen : At coloned.optarg (i + addr.length + 1)
      (after ++ rest) := atAfter.update (by omega)
  have atEndSeen : At seen.optarg (i + addr.length + 1 + after.length) rest :=
    atEnd.update (by omega)
  have seenTransparent : (seen.binds seen.current).transparent =
      after.contains (charByte 't') := by
    change (Function.update (Function.update parser.binds parser.current _)
      parser.current _ parser.current).transparent = _
    rw [Function.update_self]
    change ((Function.update parser.binds parser.current _
      parser.current).transparent || _) = _
    rw [Function.update_self]
    simp [blank]
  obtain ⟨place, isPlace, binds, prepared⟩ :=
    @stepPort_end len _ _ _ atEndSeen ends
  refine ⟨seen.stepPort len (i + addr.length + 1 + after.length),
    atoi (stringAt len (Function.update seen.optarg place 0) seen.stateStart),
    ?_, ?_, prepared, ?_⟩
  · rw [binds]
    simp [seen, coloned, sees, setBind, blank]
  · intro digits transparent isPort isAfter
    congr 1
    have noT : (digits.contains (charByte 't')) = false := by
      rw [List.contains_eq_mem, decide_eq_false_iff_not]
      intro member
      exact absurd (isPort.digits _ member) (by decide)
    have contains : after.contains (charByte 't') = transparent := by
      rw [isAfter]
      cases transparent with
      | true => simp
      | false => simpa using noT
    rw [seenTransparent, contains] at isPlace
    have stops : place = i + addr.length + 1 + digits.length := by
      rw [isPlace, isAfter]
      cases transparent with
      | true => simp
      | false => simp
    have stringStart : seen.stateStart = i + addr.length + 1 := rfl
    rw [stringStart]
    refine stringAt_eq ?_ ?_ ?_ ?_
    · intro offset inRange
      rw [Function.update_of_ne (by omega)]
      rw [isAfter, List.append_assoc] at atAfterSeen
      exact atAfterSeen.getElem inRange
    · intro digit member
      have isDig := isPort.digits digit member
      rintro rfl
      exact absurd isDig (by decide)
    · rw [← stops, Function.update_self]
    · have length : digits.length ≤ after.length := by
        rw [isAfter, List.length_append]
        omega
      omega
  · intro final runs
    have stepColon : parser.step len (i + addr.length) =
        .ok (coloned, i + addr.length) := by
      rw [← isColoned]
      unfold Parser.step
      rcases state with state | state <;> rw [state] <;> rfl
    have stepEnd : seen.step len (i + addr.length + 1 + after.length) =
        .ok (seen.stepPort len (i + addr.length + 1 + after.length),
          i + addr.length + 1 + after.length) := rfl
    have fromEnd := Runs.step (by omega) stepEnd le_rfl runs
    have fromPort : Runs len (i + addr.length + 1) coloned final :=
      Runs.port rfl atAfterSeen plainPort (by omega) fromEnd
    exact Runs.address state at_ noColon (by omega)
      (Runs.step (by omega) stepColon le_rfl fromPort)

/-- The path is passed. -/
theorem Runs.path {path rest : Bytes} (state : parser.state = .unixPath)
    (at_ : At parser.optarg i (path ++ rest)) (plain : Item.Plain path)
    (inside : i + path.length ≤ len + 1)
    (runs : Runs len (i + path.length) parser final) :
    Runs len i parser final := by
  induction path generalizing i with
  | nil => exact runs
  | cons byte path ih =>
      rw [List.length_cons] at inside runs
      have place : i + 1 + path.length = i + (path.length + 1) := by omega
      have here := plain byte List.mem_cons_self
      have same : parser.stepUnixPath i = .ok parser := by
        unfold stepUnixPath
        rw [at_.head, if_neg (by simpa using ⟨here.2, here.1⟩)]
        rfl
      have stepped : parser.step len i = .ok (parser, i) := by
        unfold Parser.step
        rw [state]
        dsimp only
        rw [same]
        rfl
      refine Runs.step (by omega) stepped le_rfl (ih at_.tail
        (fun other member => plain other (List.mem_cons_of_mem _ member))
        (by omega) ?_)
      rw [place]
      exact runs

/-- The end of a path. -/
theorem stepUnixPath_end {path rest : Bytes}
    (at_ : At parser.optarg parser.stateStart (path ++ rest))
    (place : i = parser.stateStart + path.length) (ends : Ends rest)
    (fits : path.length ≤ addrSize) :
    ∃ next, parser.stepUnixPath i = .ok next ∧
      next.binds = (parser.setBind fun bind =>
        { bind with addr := path, port := 0 }).binds ∧
      Prepared next parser.current i rest := by
  have atEnd : At parser.optarg i rest := by
    rw [place]
    exact at_.drop
  have copied : ((List.range (i - parser.stateStart)).map fun offset =>
      parser.optarg (parser.stateStart + offset)) = path := by
    apply List.ext_getElem
    · rw [List.length_map, List.length_range]
      omega
    · intro offset _ inRange
      rw [List.getElem_map, List.getElem_range]
      exact at_.getElem inRange
  have notNul : (0 : UInt8) ≠ charByte ',' := by decide
  unfold stepUnixPath
  dsimp only
  rw [copied]
  rcases ends with rfl | ⟨more, rfl⟩
  · have nul : parser.optarg i = 0 := atEnd 0
    rw [nul, if_pos (Or.inl rfl), if_neg (by omega), if_neg notNul]
    exact ⟨_, rfl, rfl, fun more isMore =>
      absurd isMore (List.cons_ne_nil _ _).symm⟩
  · rw [atEnd.head, if_pos (Or.inr rfl), if_neg (by omega), if_pos rfl]
    refine ⟨_, rfl, rfl, fun other isMore => ⟨rfl, rfl, rfl, ?_⟩⟩
    obtain ⟨-, rfl⟩ := List.cons.inj isMore
    exact atEnd.tail

end Parser

theorem not_isSpace_of_isDigit {byte : UInt8} (digit : isDigit byte = true) :
    isSpace byte = false := by
  unfold isDigit at digit
  unfold isSpace
  rw [decide_eq_true_iff] at digit
  rw [decide_eq_false_iff_not]
  rintro (rfl | ⟨-, below⟩)
  · exact absurd digit (by decide)
  · exact absurd (UInt8.le_trans digit.1 below) (by decide)

theorem atoi_port {port : Bytes} (isPort : Item.IsPort port) :
    atoi port = digitsValue port := by
  obtain ⟨digits, nonempty, small⟩ := isPort
  have noSpace : port.dropWhile isSpace = port := by
    cases port with
    | nil => rfl
    | cons digit rest =>
        rw [List.dropWhile_cons_of_neg]
        rw [not_isSpace_of_isDigit (digits digit List.mem_cons_self)]
        exact Bool.false_ne_true
  have all : port.takeWhile isDigit = port :=
    List.takeWhile_eq_self_iff.mpr digits
  have scanned : scanInteger port =
      some ((digitsValue port : Int), port.dropWhile isDigit) := by
    unfold scanInteger
    rw [noSpace]
    cases port with
    | nil => exact absurd rfl nonempty
    | cons digit rest =>
        have isDig := digits digit List.mem_cons_self
        have notMinus : digit ≠ charByte '-' := by
          rintro rfl
          exact absurd isDig (by decide)
        have notPlus : digit ≠ charByte '+' := by
          rintro rfl
          exact absurd isDig (by decide)
        simp only [if_neg notMinus, if_neg notPlus]
        rw [all]
        simp
  unfold atoi scanInt32
  rw [scanned]
  simp only [Option.map_some, Option.getD_some]
  unfold i32 u32OfInt
  split <;> omega

/-- What the parser makes of a specification: what it says, or for IPv6
something else. -/
def Parsed (item : Item) (bind : Bind) : Prop :=
  (¬item.isInet6 → bind = item.bind) ∧
    (item.isInet6 → bind ≠ item.bind)

def blank : Bind := ⟨.unspec, [], 0, false⟩

theorem plain_portText {port : Bytes} {transparent : Bool}
    (isPort : Item.IsPort port) :
    Item.Plain (port ++ if transparent then [charByte 't'] else []) := by
  intro byte member
  rcases List.mem_append.mp member with digit | suffix
  · have isDig := isPort.digits byte digit
    constructor
    · rintro rfl
      exact absurd isDig (by decide)
    · rintro rfl
      exact absurd isDig (by decide)
  · cases transparent with
    | true =>
        obtain rfl := List.mem_singleton.mp suffix
        exact ⟨by decide, by decide⟩
    | false => exact absurd suffix List.not_mem_nil

namespace Parser

variable {len i : Nat} {parser final : Parser}

/-- An IPv4 specification. -/
theorem runs_inet {addr port rest : Bytes} {transparent : Bool}
    (plain : ∀ byte ∈ addr, isDigit byte = true ∨ byte = charByte '.')
    (isPort : Item.IsPort port) (state : parser.state = .first)
    (atStart : parser.stateStart = i)
    (at_ : At parser.optarg i
      ((Item.inet addr port transparent).text ++ rest))
    (ends : Ends rest)
    (isLen : len = i +
      ((Item.inet addr port transparent).text ++ rest).length)
    (isBlank : parser.binds parser.current = blank) :
    ∃ next, next.binds = Function.update parser.binds parser.current
        (Item.inet addr port transparent).bind ∧
      Prepared next parser.current
        (i + (Item.inet addr port transparent).text.length) rest ∧
      ∀ final, Runs len (i + (Item.inet addr port transparent).text.length + 1)
        next final → Runs len i parser final := by
  let begun : Parser :=
    { parser.setBind fun bind => { bind with af := .inet } with state := .ipv4 }
  let after := port ++ if transparent = true then [charByte 't'] else []
  have shape : (Item.inet addr port transparent).text ++ rest =
      addr ++ charByte ':' :: (after ++ rest) := by
    simp [Item.text, portText, after]
  have length : (Item.inet addr port transparent).text.length =
      addr.length + 1 + after.length := by
    simp [Item.text, portText, after]
    omega
  rw [shape] at at_ isLen
  have others : ∀ byte ∈ addr, byte ≠ charByte ':' ∧ byte ≠ 0 ∧
      byte ≠ charByte '[' ∧ byte ≠ charByte 'u' := by
    intro byte member
    rcases plain byte member with digit | rfl
    · refine ⟨?_, ?_, ?_, ?_⟩
      all_goals
        rintro rfl
        exact absurd digit (by decide)
    · decide
  have head : parser.optarg i ≠ charByte '[' ∧
      parser.optarg i ≠ charByte 'u' := by
    cases addr with
    | nil =>
        rw [at_.head]
        decide
    | cons byte addr =>
        rw [at_.head]
        have here := others byte List.mem_cons_self
        exact ⟨here.2.2.1, here.2.2.2⟩
  have begins : parser.step len i = begun.step len i := by
    unfold Parser.step
    rw [state]
    dsimp only
    rw [if_neg head.1, if_neg fun both => head.2 both.1]
  have begunBlank : begun.binds begun.current = { blank with af := .inet } := by
    change Function.update parser.binds parser.current _ parser.current = _
    rw [Function.update_self, isBlank]
  obtain ⟨next, value, binds, isValue, prepared, runs⟩ :=
    @runs_addressPort _ _ begun _ after _ (Or.inl rfl) atStart at_
      (fun byte member => (others byte member).1)
      (fun byte member => (others byte member).2.1) (plain_portText isPort) ends
      isLen (by rw [begunBlank]; rfl)
  have place : i + (Item.inet addr port transparent).text.length =
      i + addr.length + 1 + after.length := by omega
  have contains : after.contains (charByte 't') = transparent := by
    have noT : (port.contains (charByte 't')) = false := by
      rw [List.contains_eq_mem, decide_eq_false_iff_not]
      intro member
      exact absurd (isPort.digits _ member) (by decide)
    cases transparent with
    | true => simp [after]
    | false => simpa [after] using noT
  refine ⟨next, ?_, ?_, ?_⟩
  · rw [binds, isValue port transparent isPort rfl, atoi_port isPort, contains]
    simp [setBind, begun, isBlank, blank, Item.bind]
  · rw [place]
    exact prepared
  · intro final ran
    rw [place] at ran
    have fromBegun := runs final ran
    intro passes enough
    rw [List.length_append, List.length_cons] at isLen
    obtain ⟨passes, rfl⟩ : ∃ fewer, passes = fewer + 1 :=
      ⟨passes - 1, by omega⟩
    have loops := fromBegun (passes + 1) enough
    unfold loop at loops ⊢
    rw [if_neg (by omega)] at loops ⊢
    rw [begins]
    exact loops

/-- An IPv6 specification: its first colon ends the address. -/
theorem runs_inet6 {addr port rest : Bytes} {transparent : Bool}
    (plain : Item.Plain addr) (noBracket : charByte ']' ∉ addr)
    (isPort : Item.IsPort port) (state : parser.state = .first)
    (atStart : parser.stateStart = i)
    (at_ : At parser.optarg i
      ((Item.inet6 addr port transparent).text ++ rest))
    (ends : Ends rest)
    (isLen : len = i +
      ((Item.inet6 addr port transparent).text ++ rest).length)
    (isBlank : parser.binds parser.current = blank) :
    ∃ next bind, next.binds =
        Function.update parser.binds parser.current bind ∧
      bind ≠ (Item.inet6 addr port transparent).bind ∧
      Prepared next parser.current
        (i + (Item.inet6 addr port transparent).text.length) rest ∧
      ∀ final, Runs len
          (i + (Item.inet6 addr port transparent).text.length + 1) next final →
        Runs len i parser final := by
  let begun : Parser :=
    { parser.setBind fun bind => { bind with af := .inet6 } with
      state := .ipv6
      stateStart := parser.stateStart + 1 }
  let inner := addr ++ charByte ']' :: portText port transparent
  have shape : (Item.inet6 addr port transparent).text =
      charByte '[' :: inner := rfl
  have plainInner : Item.Plain inner := by
    intro byte member
    rcases List.mem_append.mp member with isAddr | behind
    · exact plain byte isAddr
    · rcases List.mem_cons.mp behind with rfl | behind
      · decide
      · rcases List.mem_cons.mp behind with rfl | behind
        · decide
        · exact plain_portText isPort byte behind
  -- where the first colon is
  obtain ⟨text, after, isInner, noColon⟩ : ∃ text after,
      inner = text ++ charByte ':' :: after ∧
        ∀ byte ∈ text, byte ≠ charByte ':' := by
    have colon : charByte ':' ∈ inner :=
      List.mem_append_right _ (List.mem_cons_of_mem _ List.mem_cons_self)
    obtain ⟨text, after, isInner, first⟩ := List.eq_append_cons_of_mem colon
    exact ⟨text, after, isInner, fun byte member same =>
      first (same ▸ member)⟩
  have wrong : text ≠ addr := by
    rintro rfl
    have tails := List.append_cancel_left isInner
    exact absurd (List.cons.inj tails).1 (by decide)
  have at_' := at_
  rw [shape] at at_' isLen
  have atInner : At parser.optarg (i + 1) (text ++ charByte ':' ::
      (after ++ rest)) := by
    have tail := At.tail at_'
    change At parser.optarg (i + 1) (inner ++ rest) at tail
    rwa [isInner, List.append_assoc, List.cons_append] at tail
  have innerLength : inner.length = text.length + 1 + after.length := by
    rw [isInner, List.length_append, List.length_cons]
    omega
  have begunBlank : begun.binds begun.current = { blank with af := .inet6 } := by
    change Function.update parser.binds parser.current _ parser.current = _
    rw [Function.update_self, isBlank]
  have begunStart : begun.stateStart = i + 1 := by
    change parser.stateStart + 1 = i + 1
    rw [atStart]
  rw [List.length_append, List.length_cons] at isLen
  obtain ⟨next, value, binds, -, prepared, runs⟩ :=
    @runs_addressPort len _ begun text
      after _ (Or.inr rfl)
      begunStart atInner noColon
      (fun byte member => (plainInner byte (isInner ▸
        List.mem_append_left _ member)).2)
      (fun byte member => plainInner byte (isInner ▸
        List.mem_append_right _ (List.mem_cons_of_mem _ member)))
      ends
      (by
        rw [List.length_append, List.length_cons, List.length_append]
        omega)
      (by rw [begunBlank]; rfl)
  have place : i + (Item.inet6 addr port transparent).text.length =
      i + 1 + text.length + 1 + after.length := by
    rw [shape, List.length_cons]
    omega
  refine ⟨next, ⟨.inet6, text, value, after.contains (charByte 't')⟩, ?_, ?_,
    ?_, ?_⟩
  · rw [binds]
    simp [setBind, begun, isBlank, blank]
  · intro same
    exact wrong (congrArg Bind.addr same)
  · rw [place]
    exact prepared
  · intro final ran
    rw [place] at ran
    have bracket : parser.optarg i = charByte '[' := At.head at_'
    have stepped : parser.step len i = .ok (begun, i) := by
      unfold Parser.step
      rw [state]
      dsimp only
      rw [if_pos bracket]
      rfl
    exact Runs.step (by omega) stepped le_rfl (runs final ran)

/-- A specification of a path. -/
theorem runs_unix {path rest : Bytes} (plain : Item.Plain path)
    (fits : path.length ≤ addrSize) (state : parser.state = .first)
    (atStart : parser.stateStart = i)
    (at_ : At parser.optarg i ((Item.unix path).text ++ rest))
    (ends : Ends rest)
    (isLen : len = i + ((Item.unix path).text ++ rest).length)
    (isBlank : parser.binds parser.current = blank) :
    ∃ next, next.binds = Function.update parser.binds parser.current
        (Item.unix path).bind ∧
      Prepared next parser.current (i + (Item.unix path).text.length) rest ∧
      ∀ final, Runs len (i + (Item.unix path).text.length + 1) next final →
        Runs len i parser final := by
  let begun : Parser :=
    { parser.setBind fun bind => { bind with af := .unix } with
      state := .unixPath
      stateStart := parser.stateStart + 2 }
  have length : (Item.unix path).text.length = path.length + 2 := rfl
  rw [List.length_append, length] at isLen
  have atPath : At parser.optarg (i + 1 + 1) (path ++ rest) := at_.tail.tail
  have begunStart : begun.stateStart = i + 1 + 1 := by
    change parser.stateStart + 2 = i + 1 + 1
    rw [atStart]
  have place : i + (Item.unix path).text.length =
      i + 1 + 1 + path.length := by
    rw [length]
    omega
  obtain ⟨next, stops, binds, prepared⟩ :=
    @stepUnixPath_end (i + 1 + 1 + path.length) begun _
      rest (by rw [begunStart]; exact atPath) (by rw [begunStart])
      ends fits
  refine ⟨next, ?_, ?_, ?_⟩
  · rw [binds]
    simp [setBind, begun, isBlank, blank, Item.bind]
  · rw [place]
    exact prepared
  · intro final ran
    rw [place] at ran
    have letter : parser.optarg i = charByte 'u' := At.head at_
    have colon : parser.optarg (i + 1) = charByte ':' := At.head at_.tail
    have notBracket : charByte 'u' ≠ charByte '[' := by decide
    have stepped : parser.step len i = .ok (begun, i + 1) := by
      unfold Parser.step
      rw [state]
      dsimp only
      rw [letter, if_neg notBracket, if_pos ⟨rfl, colon⟩]
      rfl
    have stepEnd : begun.step len (i + 1 + 1 + path.length) =
        .ok (next, i + 1 + 1 + path.length) := by
      have unfolds : begun.step len (i + 1 + 1 + path.length) =
          (begun.stepUnixPath (i + 1 + 1 + path.length)).bind fun parser =>
            .ok (parser, i + 1 + 1 + path.length) := rfl
      rw [unfolds, stops]
      rfl
    have fromPath : Runs len (i + 1 + 1) begun final :=
      Runs.path rfl atPath plain (by omega)
        (Runs.step (by omega) stepEnd le_rfl ran)
    exact Runs.step (by omega) stepped (by omega) fromPath

/-- One specification of the list. -/
theorem runs_item {item : Item} {rest : Bytes} (wellFormed : item.WellFormed)
    (state : parser.state = .first) (atStart : parser.stateStart = i)
    (at_ : At parser.optarg i (item.text ++ rest)) (ends : Ends rest)
    (isLen : len = i + (item.text ++ rest).length)
    (isBlank : parser.binds parser.current = blank) :
    ∃ next bind, next.binds =
        Function.update parser.binds parser.current bind ∧
      Parsed item bind ∧
      Prepared next parser.current (i + item.text.length) rest ∧
      ∀ final, Runs len (i + item.text.length + 1) next final →
        Runs len i parser final := by
  cases item with
  | inet addr port transparent =>
      obtain ⟨next, binds, prepared, runs⟩ := runs_inet wellFormed.1
        wellFormed.2 state atStart at_ ends isLen isBlank
      exact ⟨next, _, binds, ⟨fun _ => rfl, False.elim⟩, prepared, runs⟩
  | inet6 addr port transparent =>
      obtain ⟨next, bind, binds, wrong, prepared, runs⟩ :=
        runs_inet6 wellFormed.1.1 wellFormed.1.2 wellFormed.2 state atStart at_
          ends isLen isBlank
      exact ⟨next, bind, binds, ⟨fun other => absurd trivial other,
        fun _ => wrong⟩, prepared, runs⟩
  | unix path =>
      obtain ⟨next, binds, prepared, runs⟩ := runs_unix wellFormed.1
        wellFormed.2 state atStart at_ ends isLen isBlank
      exact ⟨next, _, binds, ⟨fun _ => rfl, False.elim⟩, prepared, runs⟩

/-- All specifications of the list. -/
theorem runs_list {items : List Item} (nonempty : items ≠ [])
    (wellFormed : ∀ item ∈ items, item.WellFormed)
    (state : parser.state = .first) (atStart : parser.stateStart = i)
    (at_ : At parser.optarg i (listText items))
    (isLen : len = i + (listText items).length)
    (isBlank : ∀ index, parser.current ≤ index →
      parser.binds index = blank) :
    ∃ final results, Runs len i parser final ∧
      List.Forall₂ Parsed items results ∧
      (∀ index < parser.current, final.binds index = parser.binds index) ∧
      ∀ offset (inRange : offset < results.length),
        final.binds (parser.current + offset) = results[offset] := by
  induction items generalizing i parser with
  | nil => exact absurd rfl nonempty
  | cons item items ih =>
      have wellItem := wellFormed item List.mem_cons_self
      have isBlankHere := isBlank parser.current le_rfl
      cases items with
      | nil =>
          have at_' : At parser.optarg i (item.text ++ []) := by
            rwa [List.append_nil]
          have isLen' : len = i + (item.text ++ []).length := by
            rwa [List.append_nil]
          obtain ⟨next, bind, binds, parsed, -, runs⟩ := runs_item wellItem
            state atStart at_' (Or.inl rfl) isLen' isBlankHere
          rw [List.append_nil] at isLen'
          refine ⟨next, [bind], runs next (Runs.done (by omega)),
            .cons parsed .nil, ?_, ?_⟩
          · intro index below
            rw [binds, Function.update_of_ne (by omega)]
          · intro offset inRange
            obtain rfl : offset = 0 := by simpa using inRange
            rw [Nat.add_zero, binds, Function.update_self]
            rfl
      | cons other items =>
          obtain ⟨next, bind, binds, parsed, prepared, runs⟩ :=
            runs_item wellItem state atStart at_ (Or.inr ⟨_, rfl⟩) isLen
              isBlankHere
          obtain ⟨nextState, nextStart, nextCurrent, nextAt⟩ :=
            prepared _ rfl
          have isLenNext : len = i + item.text.length + 1 +
              (listText (other :: items)).length := by
            change len = i + (item.text ++ charByte ',' ::
              listText (other :: items)).length at isLen
            rw [List.length_append, List.length_cons] at isLen
            omega
          obtain ⟨final, results, ran, all, kept, filled⟩ :=
            ih (List.cons_ne_nil _ _)
              (fun later member =>
                wellFormed later (List.mem_cons_of_mem _ member))
              nextState nextStart nextAt isLenNext (by
                intro index le
                rw [nextCurrent] at le
                rw [binds, Function.update_of_ne (by omega)]
                exact isBlank index (by omega))
          rw [nextCurrent] at kept filled
          refine ⟨final, bind :: results, runs final ran, .cons parsed all,
            ?_, ?_⟩
          · intro index below
            rw [kept index (by omega), binds,
              Function.update_of_ne (by omega)]
          · intro offset inRange
            cases offset with
            | zero =>
                rw [Nat.add_zero, kept _ (by omega), binds,
                  Function.update_self]
                rfl
            | succ offset =>
                have place : parser.current + (offset + 1) =
                    parser.current + 1 + offset := by omega
                rw [place, List.getElem_cons_succ]
                exact filled offset (by simpa using inRange)

end Parser

theorem comma_notMem_text {item : Item} (wellFormed : item.WellFormed) :
    charByte ',' ∉ item.text := by
  have notPort : ∀ {port : Bytes} {transparent : Bool}, Item.IsPort port →
      charByte ',' ∉ portText port transparent := by
    intro port transparent isPort member
    rcases List.mem_cons.mp member with same | member
    · exact absurd same (by decide)
    · exact (plain_portText isPort _ member).1 rfl
  intro member
  cases item with
  | inet addr port transparent =>
      rcases List.mem_append.mp member with isAddr | behind
      · rcases wellFormed.1 _ isAddr with digit | dot
        · exact absurd digit (by decide)
        · exact absurd dot (by decide)
      · exact notPort wellFormed.2 behind
  | inet6 addr port transparent =>
      rcases List.mem_cons.mp member with same | member
      · exact absurd same (by decide)
      rcases List.mem_append.mp member with isAddr | behind
      · exact (wellFormed.1.1 _ isAddr).1 rfl
      rcases List.mem_cons.mp behind with same | behind
      · exact absurd same (by decide)
      · exact notPort wellFormed.2 behind
  | unix path =>
      rcases List.mem_cons.mp member with same | member
      · exact absurd same (by decide)
      rcases List.mem_cons.mp member with same | member
      · exact absurd same (by decide)
      · exact (wellFormed.1 _ member).1 rfl

/-- As many binds are allocated as there are specifications. -/
theorem count_listText {items : List Item} (nonempty : items ≠ [])
    (wellFormed : ∀ item ∈ items, item.WellFormed) :
    (listText items).count (charByte ',') + 1 = items.length := by
  induction items with
  | nil => exact absurd rfl nonempty
  | cons item items ih =>
      have none_ := List.count_eq_zero_of_not_mem
        (comma_notMem_text (wellFormed item List.mem_cons_self))
      cases items with
      | nil =>
          change item.text.count (charByte ',') + 1 = 1
          rw [none_]
      | cons other items =>
          have rest := ih (List.cons_ne_nil _ _) fun later member =>
            wellFormed later (List.mem_cons_of_mem _ member)
          change (item.text ++ charByte ',' ::
            listText (other :: items)).count (charByte ',') + 1 = _
          rw [List.count_append, none_, List.count_cons_self, Nat.zero_add,
            rest]
          rfl

theorem parsed_iff {items : List Item} {results : List Bind}
    (all : List.Forall₂ Parsed items results) :
    results = items.map Item.bind ↔ ∀ item ∈ items, ¬item.isInet6 := by
  induction all with
  | nil => simp
  | @cons item bind items results parsed all ih =>
      rw [List.map_cons, List.cons.injEq, ih]
      constructor
      · rintro ⟨same, rest⟩ other member
        rcases List.mem_cons.mp member with rfl | later
        · exact fun isInet6 => parsed.2 isInet6 same
        · exact rest other later
      · intro none_
        exact ⟨parsed.1 (none_ item List.mem_cons_self),
          fun other member => none_ other (List.mem_cons_of_mem _ member)⟩

/-- A list of bind specifications is parsed into what they say exactly when
there is no IPv6 address among them. -/
theorem parseBinds_iff (items : List Item) (nonempty : items ≠ [])
    (wellFormed : ∀ item ∈ items, item.WellFormed) :
    parseBinds (listText items) = .ok (items.map Item.bind) ↔
      ∀ item ∈ items, ¬item.isInet6 := by
  have at_ : At (start (listText items)).optarg 0 (listText items) := by
    intro offset
    rw [Nat.zero_add]
    rfl
  obtain ⟨final, results, runs, all, -, filled⟩ :=
    @Parser.runs_list (listText items).length 0
      (start (listText items)) _ nonempty wellFormed rfl rfl at_
      (Nat.zero_add _).symm fun _ _ => rfl
  have length : results.length = items.length := all.length_eq.symm
  have parses : parseBinds (listText items) = .ok results := by
    have binds : (List.range items.length).map final.binds = results := by
      apply List.ext_getElem
      · rw [List.length_map, List.length_range, length]
      · intro offset _ inRange
        rw [List.getElem_map, List.getElem_range, ← filled offset inRange]
        change final.binds offset = final.binds (0 + offset)
        rw [Nat.zero_add]
    unfold parseBinds
    dsimp only
    rw [count_listText nonempty wellFormed,
      runs ((listText items).length + 1) (by omega)]
    change Except.ok ((List.range items.length).map final.binds) = _
    rw [binds]
  rw [parses, Except.ok.injEq]
  exact parsed_iff all

/-- `127.0.0.1:80t` and `u:/s`. -/
def mixedItems : List Item :=
  [.inet (['1', '2', '7', '.', '0', '.', '0', '.', '1'].map charByte)
      (['8', '0'].map charByte) true,
    .unix (['/', 's'].map charByte)]

theorem parseBinds_iff_mixed : parseBinds (listText mixedItems) =
    .ok (mixedItems.map Item.bind) := by
  refine (parseBinds_iff mixedItems (by decide) ?_).mpr ?_
  · intro item member
    rcases List.mem_cons.mp member with rfl | member
    · exact ⟨by decide +kernel, by decide +kernel, by decide +kernel, by decide⟩
    · obtain rfl := List.mem_singleton.mp member
      exact ⟨by decide +kernel, by decide⟩
  · intro item member
    rcases List.mem_cons.mp member with rfl | member
    · exact id
    · obtain rfl := List.mem_singleton.mp member
      exact id

/-- `[::1]:80`. -/
def loopbackItem : Item :=
  .inet6 ([':', ':', '1'].map charByte) (['8', '0'].map charByte) false

/-- Its address text ends at the first colon. -/
theorem parseBinds_inet6 : loopbackItem.WellFormed ∧
    parseBinds (listText [loopbackItem]) ≠
      .ok ([loopbackItem].map Item.bind) := by
  refine ⟨⟨⟨by decide +kernel, by decide⟩, by decide +kernel,
    by decide +kernel, by decide⟩, ?_⟩
  have parses : parseBinds (listText [loopbackItem]) =
      .ok [⟨.inet6, [], 0, false⟩] := by
    rfl
  rw [parses]
  decide

end Binds

end SimpleCache
