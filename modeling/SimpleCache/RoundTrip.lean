import SimpleCache.Loading

/-!
# What the text of an index says

The lines that a flush writes are read back as the entries that it wrote them
for, as long as the names are words: the format has no way to quote one.
-/

namespace SimpleCache

variable {kh : KHash}

/-- The last digit comes off the end. -/
theorem printNat_eq (number : Nat) :
    printNat number =
      (if number < 10 then [] else printNat (number / 10)) ++
        [UInt8.ofNat (48 + number % 10)] := by
  have digit : ∀ digit < 10,
      charByte (Nat.digitChar digit) = UInt8.ofNat (48 + digit) := by decide
  unfold printNat
  rw [Nat.toDigits_eq_if (by omega)]
  split
  · next less => simp [digit number less, Nat.mod_eq_of_lt less]
  · simp [digit (number % 10) (Nat.mod_lt _ (by omega))]

theorem printNat_ne_nil (number : Nat) : printNat number ≠ [] := by
  rw [printNat_eq]
  simp

theorem isDigit_printNat (number : Nat) :
    ∀ byte ∈ printNat number, isDigit byte = true := by
  have digits : ∀ digit < 10, isDigit (UInt8.ofNat (48 + digit)) = true := by
    decide
  have last := digits (number % 10) (Nat.mod_lt _ (by omega))
  intro byte member
  induction number using Nat.strongRecOn with
  | ind number ih =>
      rw [printNat_eq] at member
      rcases List.mem_append.mp member with front | atEnd
      · split at front
        · cases front
        · next large =>
            exact ih (number / 10) (by omega)
              (digits _ (Nat.mod_lt _ (by omega))) front
      · rw [List.mem_singleton.mp atEnd]
        exact last

theorem digitsValue_append (digits : Bytes) (digit : UInt8) :
    digitsValue (digits ++ [digit]) =
      10 * digitsValue digits + (digit.toNat - 48) := by
  unfold digitsValue
  rw [List.foldl_append]
  rfl

theorem digitsValue_printNat (number : Nat) :
    digitsValue (printNat number) = number := by
  have value : ∀ digit < 10, (UInt8.ofNat (48 + digit)).toNat - 48 = digit := by
    decide
  induction number using Nat.strongRecOn with
  | ind number ih =>
      rw [printNat_eq, digitsValue_append,
        value _ (Nat.mod_lt _ (by omega))]
      split
      · next less =>
          rw [Nat.mod_eq_of_lt less]
          exact Nat.zero_add number
      · rw [ih (number / 10) (by omega)]
        omega

/-- A digit is no white space, sign, separator or end of a line. -/
theorem isDigit_other (byte : UInt8) (isByte : isDigit byte = true) :
    isSpace byte = false ∧ byte ≠ charByte '-' ∧ byte ≠ charByte '+' ∧
      byte ≠ charByte '\n' ∧ byte ≠ 0 := by
  have all : ∀ number < 256, isDigit (UInt8.ofNat number) = true →
      isSpace (UInt8.ofNat number) = false ∧
        UInt8.ofNat number ≠ charByte '-' ∧ UInt8.ofNat number ≠ charByte '+' ∧
        UInt8.ofNat number ≠ charByte '\n' ∧ UInt8.ofNat number ≠ 0 := by
    decide +kernel
  have this := all byte.toNat (UInt8.toNat_lt byte)
  rw [UInt8.ofNat_toNat] at this
  exact this isByte

section Scanning

variable {rest : Bytes}

theorem scanColon_colon : scanColon (charByte ':' :: rest) = some rest := by
  unfold scanColon
  exact if_pos rfl

/-- A number ends at a colon. -/
theorem takeWhile_printNat (rest : Bytes) (number : Nat) :
    (printNat number ++ charByte ':' :: rest).takeWhile isDigit =
        printNat number ∧
      (printNat number ++ charByte ':' :: rest).dropWhile isDigit =
        charByte ':' :: rest := by
  have digits := isDigit_printNat number
  have colon : ¬isDigit (charByte ':') = true := by decide
  rw [List.takeWhile_append_of_pos digits, List.dropWhile_append_of_pos digits,
    List.takeWhile_cons_of_neg colon, List.dropWhile_cons_of_neg colon,
    List.append_nil]
  exact ⟨rfl, rfl⟩

theorem scanInteger_printNat (number : Nat) :
    scanInteger (printNat number ++ charByte ':' :: rest) =
      some ((number : Int), charByte ':' :: rest) := by
  obtain ⟨byte, digits, isFirst⟩ :=
    List.exists_cons_of_ne_nil (printNat_ne_nil number)
  have isByte : isDigit byte = true :=
    isDigit_printNat number byte (by rw [isFirst]; exact List.mem_cons_self)
  obtain ⟨notSpace, notMinus, notPlus, -⟩ := isDigit_other byte isByte
  obtain ⟨takes, drops⟩ := takeWhile_printNat rest number
  unfold scanInteger
  rw [isFirst, List.cons_append] at takes drops ⊢
  rw [List.dropWhile_cons_of_neg (by rw [notSpace]; simp)]
  simp only [if_neg notMinus, if_neg notPlus]
  rw [takes, drops, if_neg (List.cons_ne_nil _ _), ← isFirst,
    digitsValue_printNat, if_neg (by simp)]

theorem scanInteger_printInt (number : Int) :
    scanInteger (printInt number ++ charByte ':' :: rest) =
      some (number, charByte ':' :: rest) := by
  unfold printInt
  split
  · next negative =>
      obtain ⟨takes, drops⟩ := takeWhile_printNat rest number.natAbs
      have notSpace : ¬isSpace (charByte '-') = true := by decide
      unfold scanInteger
      rw [List.cons_append, List.dropWhile_cons_of_neg notSpace]
      simp only [if_true]
      rw [takes, drops, if_neg (printNat_ne_nil _), digitsValue_printNat]
      congr 2
      omega
  · next positive =>
      rw [scanInteger_printNat]
      congr 2
      omega

theorem scanInt32_printInt {number : Int} (low : -2147483648 ≤ number)
    (high : number < 2147483648) :
    scanInt32 (printInt number ++ charByte ':' :: rest) =
      some (number, charByte ':' :: rest) := by
  unfold scanInt32
  rw [scanInteger_printInt, Option.map_some]
  dsimp only
  congr 2
  unfold i32 u32OfInt
  omega

theorem scanUInt32_printNat {number : Nat} (small : number < 4294967296) :
    scanUInt32 (printNat number ++ charByte ':' :: rest) =
      some (number, charByte ':' :: rest) := by
  unfold scanUInt32
  rw [scanInteger_printNat, Option.map_some]
  dsimp only
  rw [if_neg (by omega)]
  congr 2
  unfold u32OfInt
  omega

end Scanning

/-- A name that `%s` reads back. -/
def Plain (name : Bytes) : Prop :=
  name ≠ [] ∧ ∀ byte ∈ name, isSpace byte = false ∧ byte ≠ 0

theorem plain_iff {name : Bytes} :
    (name.isEmpty = false ∧
      name.all (fun byte => !isSpace byte && byte != 0) = true) ↔
        Plain name := by
  unfold Plain
  simp

instance (name : Bytes) : Decidable (Plain name) :=
  decidable_of_iff _ plain_iff

theorem Plain.newline_notMem {name : Bytes} (plain : Plain name) :
    charByte '\n' ∉ name := by
  intro member
  have space := (plain.2 _ member).1
  revert space
  decide

theorem scanWord_plain {name : Bytes} (plain : Plain name) :
    scanWord (name ++ [charByte '\n']) = some name := by
  obtain ⟨nonempty, bytes⟩ := plain
  obtain ⟨byte, others, rfl⟩ := List.exists_cons_of_ne_nil nonempty
  have cut : [charByte '\n'].takeWhile (!isSpace ·) = [] := by decide
  have starts : ¬isSpace byte = true := by
    rw [(bytes byte List.mem_cons_self).1]
    simp
  have word : ∀ other ∈ byte :: others, (!isSpace other) = true := by
    intro other member
    rw [(bytes other member).1]
    rfl
  unfold scanWord
  rw [List.cons_append, List.dropWhile_cons_of_neg starts, ← List.cons_append]
  dsimp only
  rw [List.takeWhile_append_of_pos word, cut, List.append_nil,
    if_neg (List.cons_ne_nil _ _)]

/-- No word that is read from a string has a byte that ends one. -/
theorem plain_of_scanWord {text word : Bytes}
    (scanned : scanWord text = some word) (string : 0 ∉ text) :
    Plain word := by
  have nonzero : ∀ byte ∈ word, byte ≠ 0 := by
    rintro byte member rfl
    exact string (mem_of_scanWord scanned member)
  unfold scanWord at scanned
  dsimp only at scanned
  split at scanned
  · cases scanned
  · next nonempty =>
      obtain rfl := Option.some.inj scanned
      refine ⟨nonempty, fun byte member => ⟨?_, nonzero byte member⟩⟩
      have inWord := List.mem_takeWhile_imp member
      simpa using inWord

/-- A byte that ends neither a line nor a string. -/
def Inner (byte : UInt8) : Prop := byte ≠ charByte '\n' ∧ byte ≠ 0

theorem inner_printNat (number : Nat) : ∀ byte ∈ printNat number, Inner byte :=
  fun byte member =>
    (isDigit_other byte (isDigit_printNat number byte member)).2.2.2

theorem inner_printInt (number : Int) : ∀ byte ∈ printInt number, Inner byte := by
  have minus : Inner (charByte '-') := by
    unfold Inner
    decide
  intro byte member
  unfold printInt at member
  split at member
  · rcases List.mem_cons.mp member with rfl | digit
    · exact minus
    · exact inner_printNat _ byte digit
  · exact inner_printNat _ byte member

theorem Plain.inner {name : Bytes} (plain : Plain name) :
    ∀ byte ∈ name, Inner byte := by
  intro byte member
  refine ⟨?_, (plain.2 byte member).2⟩
  rintro rfl
  exact plain.newline_notMem member

/-- The line of an entry that the index describes, without its end. -/
def describedText (described : IndexEntry) : Bytes :=
  [charByte (if 0 ≤ described.block then 'b' else 'e'), charByte ':'] ++
    printInt described.block ++ [charByte ':'] ++
    printNat described.dataLength ++ [charByte ':'] ++
    printNat described.expires ++ [charByte ':'] ++ printNat described.it ++
    [charByte ':'] ++ described.key

/-- The line of a table, without its end. -/
def namedText (name : Bytes) : Bytes := [charByte 't', charByte ':'] ++ name

/-- The numbers are those of the fields that they are read into. -/
structure IndexEntry.Fits (described : IndexEntry) : Prop where
  low : -2147483648 ≤ described.block
  high : described.block < 2147483648
  dataLength : described.dataLength < 4294967296
  expires : described.expires < 4294967296
  it : described.it < 65536

/-- What is read from the line of an entry. -/
def IndexEntry.line (described : IndexEntry) : IndexLine :=
  .entry described.block described.dataLength described.expires described.it
    described.key

theorem takeWhile_inner {text : Bytes} (inner : ∀ byte ∈ text, Inner byte) :
    (text ++ [charByte '\n']).takeWhile (· != 0) = text ++ [charByte '\n'] := by
  rw [List.takeWhile_eq_self_iff]
  intro byte member
  rcases List.mem_append.mp member with front | atEnd
  · simpa using (inner byte front).2
  · rw [List.mem_singleton.mp atEnd]
    decide

theorem zero_notMem_takeWhile (text : Bytes) :
    0 ∉ text.takeWhile (· != 0) := by
  intro member
  have nonzero := List.mem_takeWhile_imp member
  simp at nonzero

section Lines

variable {described : IndexEntry}

theorem inner_described (plain : Plain described.key) :
    ∀ byte ∈ describedText described, Inner byte := by
  have colon : Inner (charByte ':') := by
    unfold Inner
    decide
  have kind : Inner (charByte (if 0 ≤ described.block then 'b' else 'e')) := by
    unfold Inner
    split <;> decide
  intro byte member
  unfold describedText at member
  simp only [List.mem_append, List.mem_cons, List.not_mem_nil, or_false]
    at member
  rcases member with
    ((((((((((rfl | rfl) | digit) | rfl) | digit) | rfl) | digit) | rfl) |
      digit) | rfl) | inKey)
  · exact kind
  · exact colon
  · exact inner_printInt _ byte digit
  · exact colon
  · exact inner_printNat _ byte digit
  · exact colon
  · exact inner_printNat _ byte digit
  · exact colon
  · exact inner_printNat _ byte digit
  · exact colon
  · exact plain.inner byte inKey

theorem scanEntry_described (fits : described.Fits)
    (plain : Plain described.key) :
    scanEntry ((describedText described ++ [charByte '\n']).drop 1) =
      some described.line := by
  have it : u16 described.it = described.it := Nat.mod_eq_of_lt fits.it
  unfold describedText
  simp only [List.append_assoc, List.cons_append, List.nil_append,
    List.drop_succ_cons, List.drop_zero]
  unfold scanEntry
  simp only [scanColon_colon, Option.bind_eq_bind, Option.bind_some,
    scanInt32_printInt fits.low fits.high, scanUInt32_printNat fits.dataLength,
    scanUInt32_printNat fits.expires,
    scanUInt32_printNat (fits.it.trans (by decide)), scanWord_plain plain, it,
    Option.pure_def]
  rfl

/-- The line of an entry is read back as the entry. -/
theorem parseLine_described (fits : described.Fits)
    (plain : Plain described.key) :
    parseLine (describedText described ++ [charByte '\n']) =
      described.line := by
  have scanned := scanEntry_described fits plain
  have string := takeWhile_inner (inner_described plain)
  have long : ¬(describedText described ++ [charByte '\n']).length ≤ 2 := by
    unfold describedText
    simp
  revert scanned string long
  unfold describedText
  simp only [List.append_assoc, List.cons_append, List.nil_append]
  intro scanned string long
  have notTable :
      charByte (if 0 ≤ described.block then 'b' else 'e') ≠ charByte 't' := by
    split <;> decide
  have isEntry : charByte (if 0 ≤ described.block then 'b' else 'e') =
      charByte 'b' ∨
        charByte (if 0 ≤ described.block then 'b' else 'e') = charByte 'e' := by
    split
    · exact Or.inl rfl
    · exact Or.inr rfl
  unfold parseLine
  rw [if_neg long]
  dsimp only
  rw [if_neg (fun different => different rfl), if_neg notTable,
    if_pos isEntry, string, scanned]
  rfl

theorem parseLine_namedText {name : Bytes} (plain : Plain name) :
    parseLine (namedText name ++ [charByte '\n']) = .table name := by
  have inner : ∀ byte ∈ namedText name, Inner byte := by
    have literals : Inner (charByte 't') ∧ Inner (charByte ':') := by
      unfold Inner
      decide
    intro byte member
    unfold namedText at member
    simp only [List.mem_append, List.mem_cons, List.not_mem_nil, or_false]
      at member
    rcases member with (rfl | rfl) | inName
    · exact literals.1
    · exact literals.2
    · exact plain.inner byte inName
  have string := takeWhile_inner inner
  have long : ¬(namedText name ++ [charByte '\n']).length ≤ 2 := by
    have nonempty := List.length_pos_iff.mpr plain.1
    unfold namedText
    rw [List.length_append, List.length_append, List.length_cons,
      List.length_cons, List.length_nil, List.length_singleton]
    omega
  revert string long
  unfold namedText
  simp only [List.cons_append, List.nil_append]
  intro string long
  unfold parseLine
  rw [if_neg long]
  dsimp only
  rw [if_neg (fun different => different rfl), if_pos rfl, string]
  simp only [List.drop_succ_cons, List.drop_zero]
  rw [scanWord_plain plain]

end Lines

/-- The names on a line are words, and its numbers those of the fields that
they are read into. -/
def IndexLine.WellFormed : IndexLine → Prop
  | .table name => Plain name
  | .entry block dataLength expires it key =>
      Plain key ∧ -2147483648 ≤ block ∧ block < 2147483648 ∧
        dataLength < 4294967296 ∧ expires < 4294967296 ∧ it < 65536
  | .ignored => True

theorem scanColon_subset {text rest : Bytes}
    (scanned : scanColon text = some rest) : rest ⊆ text := by
  cases text with
  | nil => cases scanned
  | cons byte text =>
      have scanned : (if byte = charByte ':' then some text else none) =
          some rest := scanned
      split at scanned
      · obtain rfl := Option.some.inj scanned
        exact List.subset_cons_self _ _
      · cases scanned

theorem scanInteger_subset {text rest : Bytes} {value : Int}
    (scanned : scanInteger text = some (value, rest)) : rest ⊆ text := by
  have inner : ∀ signed : Bytes, signed ⊆ text →
      signed.dropWhile isDigit ⊆ text := fun _ inText _ member =>
    inText ((List.dropWhile_sublist _).subset member)
  have spaces : text.dropWhile isSpace ⊆ text :=
    (List.dropWhile_sublist _).subset
  unfold scanInteger at scanned
  revert scanned spaces
  dsimp only
  cases text.dropWhile isSpace with
  | nil =>
      intro scanned spaces
      simp at scanned
  | cons byte rest =>
      intro scanned spaces
      have behind : rest ⊆ text := fun _ member =>
        spaces (List.mem_cons_of_mem _ member)
      dsimp only at scanned
      split at scanned
      · dsimp only at scanned
        split at scanned
        · cases scanned
        · rw [← (Prod.mk.inj (Option.some.inj scanned)).2]
          exact inner _ behind
      · split at scanned
        · dsimp only at scanned
          split at scanned
          · cases scanned
          · rw [← (Prod.mk.inj (Option.some.inj scanned)).2]
            exact inner _ behind
        · dsimp only at scanned
          split at scanned
          · cases scanned
          · rw [← (Prod.mk.inj (Option.some.inj scanned)).2]
            exact inner _ spaces

theorem scanInt32_ok {text rest : Bytes} {value : Int}
    (scanned : scanInt32 text = some (value, rest)) :
    rest ⊆ text ∧ -2147483648 ≤ value ∧ value < 2147483648 := by
  obtain ⟨⟨number, behind⟩, isNumber, same⟩ := Option.map_eq_some_iff.mp scanned
  obtain ⟨isValue, isRest⟩ := Prod.mk.inj same
  refine ⟨isRest ▸ scanInteger_subset isNumber, ?_⟩
  rw [← isValue]
  unfold i32 u32OfInt
  omega

theorem scanUInt32_ok {text rest : Bytes} {value : Nat}
    (scanned : scanUInt32 text = some (value, rest)) :
    rest ⊆ text ∧ value < 4294967296 := by
  obtain ⟨⟨number, behind⟩, isNumber, same⟩ := Option.map_eq_some_iff.mp scanned
  obtain ⟨isValue, isRest⟩ := Prod.mk.inj same
  refine ⟨isRest ▸ scanInteger_subset isNumber, ?_⟩
  rw [← isValue]
  unfold u32OfInt
  split <;> omega

theorem wellFormed_of_scanEntry {text : Bytes} {line : IndexLine}
    (scanned : scanEntry text = some line) (string : 0 ∉ text) :
    line.WellFormed := by
  simp only [scanEntry, Option.bind_eq_bind, Option.bind_eq_some_iff,
    Option.pure_def, Option.some.injEq, Prod.exists] at scanned
  obtain ⟨first, isFirst, block, second, isBlock, third, isThird, dataLength,
    fourth, isLength, fifth, isFifth, expires, sixth, isExpires, seventh,
    isSeventh, it, eighth, isIt, ninth, isNinth, key, isKey, rfl⟩ := scanned
  obtain ⟨blockRest, low, high⟩ := scanInt32_ok isBlock
  obtain ⟨lengthRest, length⟩ := scanUInt32_ok isLength
  obtain ⟨expiresRest, expiry⟩ := scanUInt32_ok isExpires
  obtain ⟨itRest, -⟩ := scanUInt32_ok isIt
  refine ⟨plain_of_scanWord isKey fun member => string ?_, low, high, length,
    expiry, Nat.mod_lt _ (by decide)⟩
  exact scanColon_subset isFirst (blockRest (scanColon_subset isThird
    (lengthRest (scanColon_subset isFifth (expiresRest
      (scanColon_subset isSeventh (itRest
        (scanColon_subset isNinth member))))))))

/-- Whatever a line is, what is read from it is well formed. -/
theorem wellFormed_parseLine (line : Bytes) : (parseLine line).WellFormed := by
  have string : ∀ count, 0 ∉ (line.takeWhile (· != 0)).drop count :=
    fun count member =>
      zero_notMem_takeWhile line ((List.drop_sublist _ _).subset member)
  unfold parseLine
  split
  · trivial
  · split
    · dsimp only
      split
      · trivial
      split
      · split
        · next word scanned => exact plain_of_scanWord scanned (string 2)
        · trivial
      · split
        · cases scanned : scanEntry (List.drop 1 (List.takeWhile (· != 0) _)) with
          | none => trivial
          | some said => exact wellFormed_of_scanEntry scanned (string 1)
        · trivial
    · trivial

/-- Every line of a text that ends with its last line is read. -/
theorem splitLines_flatten {lines : List Bytes}
    (inner : ∀ line ∈ lines, charByte '\n' ∉ line) :
    splitLines (lines.map (· ++ [charByte '\n'])).flatten =
      lines.map (· ++ [charByte '\n']) := by
  have one : ∀ (line rest : Bytes), charByte '\n' ∉ line →
      splitLines (line ++ charByte '\n' :: rest) =
        (line ++ [charByte '\n']) :: splitLines rest := by
    intro line rest
    induction line with
    | nil => exact fun _ => if_pos rfl
    | cons byte line ih =>
        intro inner
        rw [List.mem_cons, not_or] at inner
        rw [List.cons_append, splitLines, if_neg (Ne.symm inner.1),
          ih inner.2]
        rfl
  induction lines with
  | nil => rfl
  | cons line lines ih =>
      rw [List.map_cons, List.flatten_cons, List.append_assoc,
        List.singleton_append, one line _ (inner line List.mem_cons_self),
        ih fun other member => inner other (List.mem_cons_of_mem _ member)]

/-- The table of the lines behind a line. -/
def IndexLine.current (current : Option Bytes) : IndexLine → Option Bytes
  | .table name => some name
  | _ => current

/-- The entry that a line names, if there is a table line above it. -/
def IndexLine.entries (current : Option Bytes) : IndexLine → List IndexEntry
  | .entry block dataLength expires it key =>
      current.toList.map fun name =>
        { table := name, key, block, dataLength, expires, it }
  | _ => []

theorem readLines_cons (current : Option Bytes) (line : Bytes)
    (lines : List Bytes) :
    readLines current (line :: lines) =
      (parseLine line).entries current ++
        readLines ((parseLine line).current current) lines := by
  cases parsed : parseLine line with
  | table name => simp [readLines, parsed, IndexLine.entries, IndexLine.current]
  | entry block dataLength expires it key =>
      cases current with
      | none => simp [readLines, parsed, IndexLine.entries, IndexLine.current]
      | some name =>
          simp [readLines, parsed, IndexLine.entries, IndexLine.current]
  | ignored => simp [readLines, parsed, IndexLine.entries, IndexLine.current]

/-- What the index says of an entry. -/
def describe (db : Db kh) (name : Bytes) (entry : Nat) : IndexEntry where
  table := name
  key := (db.entry.key entry).take (db.entry.keyLength entry)
  block := db.entry.block entry
  dataLength := db.entry.dataLength entry
  expires := (db.entry.expires entry % 18446744073709551616).toNat
  it := db.entry.it entry

def tableName (db : Db kh) (table : Nat) : Bytes :=
  (db.table.key table).take (db.table.keyLength table)

def describeEntry (db : Db kh) (name : Bytes) (entry : Nat) :
    List IndexEntry :=
  if db.entry.writing entry ∨ db.entry.deleted entry then []
  else [describe db name entry]

def describeTable (db : Db kh) (table : Nat) : List IndexEntry :=
  if db.table.deleted table then []
  else (kh.values (db.table.cacheHashSet table)).flatMap
    (describeEntry db (tableName db table))

/-- The entries of a store that are neither being written nor deleted, in the
order of its maps. -/
def described (db : Db kh) : List IndexEntry :=
  (kh.values db.tables).flatMap (describeTable db)

/-- The lines of a table, without their ends. -/
def tableLines (db : Db kh) (table : Nat) : List Bytes :=
  if db.table.deleted table then []
  else namedText (tableName db table) ::
    (describeTable db table).map describedText

theorem flushEntry_eq (db : Db kh) (name : Bytes) (entry : Nat) :
    flushEntry db entry =
      ((describeEntry db name entry).map
        (describedText · ++ [charByte '\n'])).flatten := by
  unfold flushEntry describeEntry
  split
  · rfl
  · rw [List.map_singleton, List.flatten_singleton]
    rfl

theorem flushTable_eq {db : Db kh} {table : Nat} {text : Bytes}
    (run : flushTable db table = .ok text) :
    text = ((tableLines db table).map (· ++ [charByte '\n'])).flatten := by
  have entries : ∀ held : List Nat, held.flatMap (flushEntry db) =
      ((held.flatMap (describeEntry db (tableName db table))).map
        (describedText · ++ [charByte '\n'])).flatten := by
    intro held
    induction held with
    | nil => rfl
    | cons entry held ih =>
        rw [List.flatMap_cons, List.flatMap_cons, List.map_append,
          List.flatten_append, ih, flushEntry_eq db (tableName db table)]
  unfold flushTable at run
  unfold tableLines describeTable
  split at run
  · next deleted =>
      rw [if_pos deleted]
      exact (pure_eq_ok.mp run).symm
  · next present =>
      rw [if_neg present, if_neg present]
      rw [bind_eq_ok] at run
      obtain ⟨set, isSet, run⟩ := run
      obtain rfl := pure_eq_ok.mp run
      unfold keyMap at isSet
      split at isSet
      · cases isSet
      · obtain rfl := Except.ok.inj isSet
        rw [entries, List.map_cons, List.map_map, List.flatten_cons]
        rfl

theorem indexText_eq {db : Db kh} {text : Bytes}
    (run : indexText db = .ok text) :
    text = (((kh.values db.tables).flatMap (tableLines db)).map
      (· ++ [charByte '\n'])).flatten := by
  have tables : ∀ (registered : List Nat) (texts : List Bytes),
      registered.mapM (flushTable db) = .ok texts →
        texts.flatten = ((registered.flatMap (tableLines db)).map
          (· ++ [charByte '\n'])).flatten := by
    intro registered
    induction registered with
    | nil =>
        intro texts run
        rw [List.mapM_nil] at run
        rw [← pure_eq_ok.mp run]
        rfl
    | cons table registered ih =>
        intro texts run
        rw [List.mapM_cons, bind_eq_ok] at run
        obtain ⟨lines, first, run⟩ := run
        obtain ⟨rest, others, run⟩ := bind_eq_ok.mp run
        obtain rfl := pure_eq_ok.mp run
        rw [List.flatten_cons, List.flatMap_cons, List.map_append,
          List.flatten_append, ih rest others, flushTable_eq first]
  unfold indexText at run
  rw [bind_eq_ok] at run
  obtain ⟨texts, flushed, run⟩ := run
  rw [← pure_eq_ok.mp run]
  exact tables _ texts flushed

/-- The line of an entry is read back as the entry exactly when the key is a
word. -/
theorem parseLine_entryLine_iff (db : Db kh) (name : Bytes) (entry : Nat)
    (fits : (describe db name entry).Fits) :
    parseLine (entryLine db entry) = (describe db name entry).line ↔
      Plain (describe db name entry).key := by
  have line : entryLine db entry =
      describedText (describe db name entry) ++ [charByte '\n'] := rfl
  rw [line]
  refine ⟨fun same => ?_, parseLine_described fits⟩
  have wellFormed := wellFormed_parseLine
    (describedText (describe db name entry) ++ [charByte '\n'])
  rw [same] at wellFormed
  exact wellFormed.1

/-- The key "k" in block 0 of the table "a". -/
def oneKeyDb : Db listHash :=
  (dbTableNew (emptyDb emptyDisk) [97] 97).1.load 0
    (listedEntry letterHash 0 1 9 [107]) 0

theorem parseLine_entryLine_iff_oneKey :
    parseLine (entryLine oneKeyDb 0) = (describe oneKeyDb [97] 0).line ↔
      Plain (describe oneKeyDb [97] 0).key :=
  parseLine_entryLine_iff oneKeyDb [97] 0
    ⟨by decide, by decide, by decide, by decide, by decide⟩

/-- A store whose names the format can carry. -/
structure Savable (db : Db kh) : Prop where
  tables : ∀ table ∈ kh.values db.tables, db.table.deleted table = false →
    Plain (tableName db table)
  keys : ∀ entry ∈ described db, Plain entry.key
  fits : ∀ entry ∈ described db, entry.Fits

section Saved

variable {db : Db kh}

theorem newline_notMem_tableLines (savable : Savable db) :
    ∀ line ∈ (kh.values db.tables).flatMap (tableLines db),
      charByte '\n' ∉ line := by
  intro line member
  obtain ⟨table, registered, inTable⟩ := List.mem_flatMap.mp member
  unfold tableLines at inTable
  split at inTable
  · cases inTable
  · next present =>
      rcases List.mem_cons.mp inTable with rfl | ofEntry
      · have plain := savable.tables table registered (by simpa using present)
        unfold namedText
        simp only [List.mem_append, List.mem_cons, List.not_mem_nil, or_false,
          not_or]
        exact ⟨⟨by decide, by decide⟩, plain.newline_notMem⟩
      · obtain ⟨entry, inEntries, rfl⟩ := List.mem_map.mp ofEntry
        have plain := savable.keys entry
          (List.mem_flatMap.mpr ⟨table, registered, inEntries⟩)
        exact fun inLine => (inner_described plain _ inLine).1 rfl

/-- The lines of the entries of a table, below its line. -/
theorem readLines_entries {name : Bytes} {entries : List IndexEntry}
    (ofTable : ∀ entry ∈ entries, entry.table = name)
    (plain : ∀ entry ∈ entries, Plain entry.key)
    (fits : ∀ entry ∈ entries, entry.Fits) (rest : List Bytes) :
    readLines (some name)
        (entries.map (describedText · ++ [charByte '\n']) ++ rest) =
      entries ++ readLines (some name) rest := by
  induction entries with
  | nil => rfl
  | cons entry entries ih =>
      rw [List.forall_mem_cons] at ofTable plain fits
      rw [List.map_cons, List.cons_append, readLines_cons,
        parseLine_described fits.1 plain.1]
      have behind := ih ofTable.2 plain.2 fits.2
      have first : entry.line.entries (some name) = [entry] := by
        rw [← ofTable.1]
        rfl
      rw [first]
      exact congrArg (entry :: ·) behind

theorem table_of_describeTable {table : Nat} :
    ∀ entry ∈ describeTable db table, entry.table = tableName db table := by
  intro entry member
  unfold describeTable at member
  split at member
  · cases member
  · obtain ⟨held, -, inEntry⟩ := List.mem_flatMap.mp member
    unfold describeEntry at inEntry
    split at inEntry
    · cases inEntry
    · rw [List.mem_singleton.mp inEntry]
      rfl

theorem readLines_tables (savable : Savable db) :
    ∀ (registered : List Nat) (current : Option Bytes),
      registered ⊆ kh.values db.tables →
        readLines current ((registered.flatMap (tableLines db)).map
          (· ++ [charByte '\n'])) = registered.flatMap (describeTable db) := by
  intro registered
  induction registered with
  | nil => exact fun _ _ => rfl
  | cons table registered ih =>
      intro current within
      rw [List.cons_subset] at within
      rw [List.flatMap_cons, List.flatMap_cons, List.map_append]
      by_cases deleted : db.table.deleted table = true
      · have noLines : tableLines db table = [] := if_pos deleted
        have noEntries : describeTable db table = [] := if_pos deleted
        rw [noLines, noEntries]
        exact ih current within.2
      · have lines : tableLines db table = namedText (tableName db table) ::
            (describeTable db table).map describedText := if_neg deleted
        have plain := savable.tables table within.1 (by simpa using deleted)
        rw [lines, List.map_cons, List.cons_append, readLines_cons,
          parseLine_namedText plain]
        have inDescribed : ∀ entry ∈ describeTable db table,
            entry ∈ described db := fun entry member =>
          List.mem_flatMap.mpr ⟨table, within.1, member⟩
        rw [List.map_map, ← ih (some (tableName db table)) within.2]
        exact readLines_entries table_of_describeTable
          (fun entry member => savable.keys entry (inDescribed entry member))
          (fun entry member => savable.fits entry (inDescribed entry member)) _

/-- The text of an index says what the store has. -/
theorem readIndex_saved (savable : Savable db) {text : Bytes}
    (saved : indexText db = .ok text) : readIndex text = described db := by
  unfold readIndex
  rw [indexText_eq saved,
    splitLines_flatten (newline_notMem_tableLines savable)]
  exact readLines_tables savable _ none (List.Subset.refl _)

end Saved

end SimpleCache
