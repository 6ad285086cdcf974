import Mathlib.Logic.Relation
import SimpleCache.Index
import SimpleCache.Library.BucketList
import SimpleCache.Library.Outcome

/-!
# Replacing the index file

`db_index_flush` writes the index to `index.temp`, one buffer after the other,
then unlinks `index.save` and renames the new file to that name.  The process
can be killed between any two system calls, and a write can fail or store less
than it was given.
-/

namespace SimpleCache

variable {kh : KHash}

/-- The buffers of one entry, if the index has it. -/
def entryBuffers (db : Db kh) (entry : Nat) : List Bytes :=
  if db.entry.writing entry ∨ db.entry.deleted entry then []
  else
    [entryHead db entry,
      (db.entry.key entry).take (db.entry.keyLength entry),
      [charByte '\n']]

def tableBuffers (db : Db kh) (table : Nat) : Except Fault (List Bytes) := do
  if db.table.deleted table then
    return []
  let set ← keyMap db table
  return [[charByte 't', charByte ':'],
    (db.table.key table).take (db.table.keyLength table), [charByte '\n']] ++
      (kh.values set).flatMap (entryBuffers db)

/-- The buffers that are passed to `full_write`, in order. -/
def indexBuffers (db : Db kh) : Except Fault (List Bytes) := do
  let buffers ← (kh.values db.tables).mapM (tableBuffers db)
  return buffers.flatten

theorem flatten_entryBuffers (db : Db kh) (entry : Nat) :
    (entryBuffers db entry).flatten = flushEntry db entry := by
  unfold entryBuffers flushEntry entryLine
  split
  · rfl
  · simp

theorem flatten_tableBuffers (db : Db kh) (table : Nat) :
    (tableBuffers db table).map List.flatten = flushTable db table := by
  have entries : ∀ held : List Nat,
      (held.flatMap (entryBuffers db)).flatten =
        held.flatMap (flushEntry db) := by
    intro held
    induction held with
    | nil => rfl
    | cons entry held ih =>
        rw [List.flatMap_cons, List.flatMap_cons, List.flatten_append,
          flatten_entryBuffers, ih]
  unfold tableBuffers flushTable
  split
  · rfl
  · cases keyMap db table with
    | error fault => rfl
    | ok set =>
        simp [bind, Except.bind, pure, Except.pure, Except.map, entries,
          tableLine]

/-- The buffers together are the index. -/
theorem flatten_indexBuffers (db : Db kh) :
    (indexBuffers db).map List.flatten = indexText db := by
  have tables : ∀ registered : List Nat,
      (registered.mapM (tableBuffers db)).map
          (fun buffers => buffers.flatten.flatten) =
        (registered.mapM (flushTable db)).map List.flatten := by
    intro registered
    induction registered with
    | nil => rfl
    | cons table registered ih =>
        rw [List.mapM_cons, List.mapM_cons, ← flatten_tableBuffers]
        cases tableBuffers db table with
        | error fault => rfl
        | ok buffers =>
            revert ih
            cases registered.mapM (tableBuffers db) with
            | error fault =>
                cases registered.mapM (flushTable db) with
                | error other => exact fun ih => ih
                | ok lines => simp [Except.map]
            | ok rest =>
                cases registered.mapM (flushTable db) with
                | error other => simp [Except.map]
                | ok lines =>
                    intro ih
                    have ih : rest.flatten.flatten = lines.flatten := by
                      simpa [Except.map] using ih
                    simp [bind, Except.bind, pure, Except.pure, Except.map, ih]
  have all := tables (kh.values db.tables)
  unfold indexBuffers indexText
  revert all
  cases (kh.values db.tables).mapM (tableBuffers db) with
  | error fault =>
      cases (kh.values db.tables).mapM (flushTable db) with
      | error other => exact fun all => all
      | ok lines => simp [Except.map]
  | ok buffers =>
      cases (kh.values db.tables).mapM (flushTable db) with
      | error other => simp [Except.map]
      | ok lines => exact fun all => all

/-- The next system call of the flush. -/
inductive FlushStage
  | opening
  | writing (buffer : Bytes) (rest : List Bytes)
  | unlinking
  | replacing
  | cleaning
  | stopped
  deriving DecidableEq

/-- `index.temp` and `index.save`, and how far the flush is. -/
structure Flushing where
  temp : Option Bytes
  save : Option Bytes
  stage : FlushStage

/-- The outcome of a system call; `write` stores at most `count` bytes. -/
inductive CallOutcome
  | fails
  | succeeds (count : Nat)

def writeNext : List Bytes → FlushStage
  | [] => .unlinking
  | buffer :: rest => .writing buffer rest

/-- One system call of `db_index_flush`.  Opening and writing can fail, which
leaves `index.save` alone. -/
def flushCall (buffers : List Bytes) (state : Flushing) :
    CallOutcome → Flushing
  | outcome =>
      match state.stage, outcome with
      | .opening, .fails => { state with stage := .stopped }
      | .opening, .succeeds _ =>
          { state with
            temp := some []
            stage := writeNext buffers }
      | .writing _ _, .fails => { state with stage := .stopped }
      | .writing buffer rest, .succeeds count =>
          let left := buffer.drop count
          { state with
            temp := some (state.temp.getD [] ++ buffer.take count)
            stage := if left = [] then writeNext rest else .writing left rest }
      | .unlinking, _ => { state with save := none, stage := .replacing }
      | .replacing, _ =>
          { temp := none
            save := state.temp.or state.save
            stage := .cleaning }
      | .cleaning, _ => { state with temp := none, stage := .stopped }
      | .stopped, _ => state

/-- The states in which a flush of these buffers can be killed. -/
def Flushes (buffers : List Bytes) : Flushing → Flushing → Prop :=
  Relation.ReflTransGen fun before after =>
    ∃ outcome, after = flushCall buffers before outcome

/-- `index.save` is the old index or the new one, complete, and the next
`db_open` loads it. -/
def Recovers (kh : KHash) (hashString : Bytes → UInt32) (old new : Bytes)
    (state : Flushing) : Prop :=
  ∃ text, (text = old ∨ text = new) ∧ state.save = some text ∧
    ∀ disk : Disk, disk.indexSave = state.save →
      (dbOpen hashString disk : Except Fault (Db kh)) =
        dbLoadFromSave hashString (emptyDb disk) text

/-- What a flush leaves at each stage: the old index until it is unlinked, and
from the rename on the buffers, which `index.temp` collects in between. -/
def FlushInvariant (old : Bytes) (buffers : List Bytes) (state : Flushing) :
    Prop :=
  match state.stage with
  | .opening => state.save = some old
  | .writing buffer rest =>
      state.save = some old ∧
        ∃ written, state.temp = some written ∧
          written ++ buffer ++ rest.flatten = buffers.flatten
  | .unlinking =>
      state.save = some old ∧ state.temp = some buffers.flatten
  | .replacing => state.save = none ∧ state.temp = some buffers.flatten
  | .cleaning => state.save = some buffers.flatten
  | .stopped => state.save = some old ∨ state.save = some buffers.flatten

/-- The stage after a buffer. -/
private theorem FlushInvariant.next {old written : Bytes}
    {buffers rest : List Bytes}
    (collected : written ++ rest.flatten = buffers.flatten) :
    FlushInvariant old buffers
      { temp := some written, save := some old, stage := writeNext rest } := by
  cases rest with
  | nil => exact ⟨rfl, congrArg some (by simpa using collected)⟩
  | cons buffer rest =>
      exact ⟨rfl, written, rfl, by simpa using collected⟩

theorem FlushInvariant.call {old : Bytes} {buffers : List Bytes}
    {state : Flushing} (holds : FlushInvariant old buffers state)
    (outcome : CallOutcome) :
    FlushInvariant old buffers (flushCall buffers state outcome) := by
  obtain ⟨temp, save, stage⟩ := state
  cases stage with
  | opening =>
      obtain rfl : save = some old := holds
      cases outcome with
      | fails => exact Or.inl rfl
      | succeeds count => exact FlushInvariant.next rfl
  | writing buffer rest =>
      obtain ⟨rfl, written, rfl, collected⟩ := holds
      cases outcome with
      | fails => exact Or.inl rfl
      | succeeds count =>
          by_cases done : buffer.drop count = []
          · have whole : buffer.take count = buffer := by
              have := List.take_append_drop count buffer
              rwa [done, List.append_nil] at this
            simp only [flushCall, done, if_true, Option.getD_some, whole]
            exact FlushInvariant.next collected
          · simp only [flushCall, if_neg done, Option.getD_some]
            refine ⟨rfl, _, rfl, ?_⟩
            rw [List.append_assoc written, List.take_append_drop]
            exact collected
  | unlinking => exact ⟨rfl, holds.2⟩
  | replacing =>
      obtain ⟨rfl, rfl⟩ := holds
      rfl
  | cleaning => exact Or.inr holds
  | stopped => exact holds

theorem FlushInvariant.run {old : Bytes} {buffers : List Bytes}
    {temp : Option Bytes} {state : Flushing}
    (reached : Flushes buffers
      { temp, save := some old, stage := .opening } state) :
    FlushInvariant old buffers state := by
  induction reached with
  | refl => rfl
  | tail _ called ih =>
      obtain ⟨outcome, rfl⟩ := called
      exact ih.call outcome

theorem FlushInvariant.saved_iff {old : Bytes} {buffers : List Bytes}
    {state : Flushing} (holds : FlushInvariant old buffers state) :
    (state.save = some old ∨ state.save = some buffers.flatten) ↔
      state.stage ≠ .replacing := by
  obtain ⟨temp, save, stage⟩ := state
  cases stage with
  | opening =>
      have saved : save = some old := holds
      simp [saved]
  | writing buffer rest => simpa using Or.inl holds.1
  | unlinking => simpa using Or.inl holds.1
  | replacing =>
      obtain ⟨rfl, -⟩ := holds
      simp
  | cleaning =>
      have saved : save = some buffers.flatten := holds
      simp [saved]
  | stopped =>
      have saved : save = some old ∨ save = some buffers.flatten := holds
      simpa using saved

/-- A flush that is killed leaves a complete index, unless it has unlinked the
old one and not renamed the new one yet. -/
theorem flush_recovers_iff {db : Db kh} (hashString : Bytes → UInt32)
    {old new : Bytes} {buffers : List Bytes} {temp : Option Bytes}
    {state : Flushing} (isIndex : indexText db = .ok new)
    (written : indexBuffers db = .ok buffers)
    (reached : Flushes buffers
      { temp, save := some old, stage := .opening } state) :
    Recovers kh hashString old new state ↔ state.stage ≠ .replacing := by
  have whole : buffers.flatten = new := by
    have := flatten_indexBuffers db
    rw [written, isIndex] at this
    exact Except.ok.inj this
  have saved := (FlushInvariant.run reached).saved_iff
  rw [whole] at saved
  rw [← saved]
  constructor
  · rintro ⟨text, rfl | rfl, isSaved, -⟩
    · exact Or.inl isSaved
    · exact Or.inr isSaved
  · have loads : ∀ text, state.save = some text → ∀ disk : Disk,
        disk.indexSave = state.save →
          (dbOpen hashString disk : Except Fault (Db kh)) =
            dbLoadFromSave hashString (emptyDb disk) text := by
      intro text isSaved disk sameSave
      unfold dbOpen
      rw [sameSave, isSaved]
    rintro (isSaved | isSaved)
    · exact ⟨old, Or.inl rfl, isSaved, loads old isSaved⟩
    · exact ⟨new, Or.inr rfl, isSaved, loads new isSaved⟩

/-- A directory without files. -/
def emptyDisk : Disk where
  paths := fun _ => none
  inodes := fun _ => ByteFile.empty
  inodeCount := 0
  blockfile := ByteFile.empty
  indexSave := none

/-- The tables and key maps of the concrete stores below. -/
abbrev listHash : KHash := bucketList UInt32 Nat

/-- A store with the key "k" in block 2 of the table "a". -/
def keyedStore : Db listHash :=
  { (emptyDb emptyDisk : Db listHash) with
    entry :=
      { (emptyDb emptyDisk : Db listHash).entry with
        count := 1
        table := fun _ => some 0
        hash := fun _ => 107
        key := fun _ => [107]
        keyLength := fun _ => 1
        dataLength := fun _ => 8
        block := fun _ => 2 }
    table :=
      { (emptyDb emptyDisk : Db listHash).table with
        count := 1
        hash := fun _ => 97
        key := fun _ => [97]
        keyLength := fun _ => 1
        cacheHashSet := fun _ => listHash.put listHash.empty 107 0 }
    tables := listHash.put listHash.empty 97 0 }

/-- An index of the table "b", without keys. -/
def oldText : Bytes := ['t', ':', 'b', '\n'].map charByte

def keyedText : Bytes :=
  ['t', ':', 'a', '\n', 'b', ':', '2', ':', '8', ':', '0', ':', '0', ':', 'k',
    '\n'].map charByte

/-- One system call after the other. -/
theorem flushes_foldl (buffers : List Bytes) (state : Flushing)
    (outcomes : List CallOutcome) :
    Flushes buffers state (outcomes.foldl (flushCall buffers) state) := by
  induction outcomes generalizing state with
  | nil => exact .refl
  | cons outcome outcomes ih => exact .head ⟨outcome, rfl⟩ (ih _)

/-- A flush over an older index, killed after a write that stored one byte of
two, and after the rename. -/
theorem flush_recovers_iff_keyed :
    ∃ writing renamed : Flushing,
      writing.temp = some [charByte 't'] ∧
        Recovers listHash (fun _ => 0) oldText keyedText writing ∧
        renamed.save = some keyedText ∧ renamed.stage = .cleaning ∧
        Recovers listHash (fun _ => 0) oldText keyedText renamed := by
  have isIndex : indexText keyedStore = .ok keyedText := by decide +kernel
  let buffers : List Bytes :=
    [[charByte 't', charByte ':'], [97], [charByte '\n'],
      ['b', ':', '2', ':', '8', ':', '0', ':', '0', ':'].map charByte, [107],
      [charByte '\n']]
  have written : indexBuffers keyedStore = .ok buffers := by decide +kernel
  let opening : Flushing :=
    { temp := none, save := some oldText, stage := .opening }
  let half := [CallOutcome.succeeds 0, .succeeds 1].foldl (flushCall buffers)
    opening
  let whole := (List.replicate 8 (CallOutcome.succeeds 10)).foldl
    (flushCall buffers) half
  have reachedHalf : Flushes buffers opening half :=
    flushes_foldl buffers opening _
  have reached : Flushes buffers opening whole :=
    reachedHalf.trans (flushes_foldl buffers half _)
  have stages : half.temp = some [charByte 't'] ∧ half.stage ≠ .replacing ∧
      whole.save = some keyedText ∧ whole.stage = .cleaning := by
    decide +kernel
  obtain ⟨oneByte, isWriting, isSaved, isCleaning⟩ := stages
  refine ⟨half, whole, oneByte, ?_, isSaved, isCleaning, ?_⟩
  · exact (flush_recovers_iff (fun _ => 0) isIndex written reachedHalf).mpr
      isWriting
  · refine (flush_recovers_iff (fun _ => 0) isIndex written reached).mpr ?_
    rw [isCleaning]
    decide

/-- A flush of an empty store, killed after the unlink. -/
theorem flush_not_atomic :
    ¬∀ (kh : KHash) (db : Db kh) (hashString : Bytes → UInt32)
      (old new : Bytes) (buffers : List Bytes) (temp : Option Bytes)
      (state : Flushing), indexText db = .ok new →
      indexBuffers db = .ok buffers →
      Flushes buffers { temp, save := some old, stage := .opening } state →
        Recovers kh hashString old new state := by
  intro claim
  have killed : Flushes [] { temp := none, save := some [], stage := .opening }
      { temp := some [], save := none, stage := .replacing } :=
    .tail (.single ⟨.succeeds 0, rfl⟩) ⟨.succeeds 0, rfl⟩
  obtain ⟨text, -, saved, -⟩ := claim listHash (emptyDb emptyDisk)
    (fun _ => 0) [] [] [] none _ rfl rfl killed
  simp at saved

end SimpleCache
