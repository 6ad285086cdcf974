import Mathlib.Data.List.Nodup
import Mathlib.Data.List.Perm.Subperm
import Mathlib.Data.Nat.Find

/-!
# Linear probing

Values live in slots that 32-bit hashes number.  A value whose own slot is
taken goes to the first free slot after it, and a search walks the same way
until it finds the value or a free slot.  The walk wraps around.
-/

namespace SimpleCache

namespace Probing

variable {Value : Type}

/-- Search for a wanted value or a free slot, in at most `probes` slots. -/
def probe (slots : UInt32 → Option Value) (wanted : Value → Bool) :
    (probes : Nat) → UInt32 → Option (UInt32 × Option Value)
  | 0, _ => none
  | probes + 1, slot =>
      match slots slot with
      | none => some (slot, none)
      | some value =>
          if wanted value then some (slot, some value)
          else probe slots wanted probes (slot + 1)

/-- A walk from `start` meets `first` before `second`. -/
def Before (start first second : UInt32) : Prop :=
  first - start < second - start

/-- A walk from `start` passes every slot before `stop`. -/
def Passes (slots : UInt32 → Option Value) (wanted : Value → Bool)
    (start stop : UInt32) : Prop :=
  ∀ slot, Before start slot stop →
    ∃ value, slots slot = some value ∧ wanted value = false

/-- A walk ends at a free slot or at a wanted value. -/
def Ends (slots : UInt32 → Option Value) (wanted : Value → Bool)
    (stop : UInt32) : Prop :=
  ∀ value, slots stop = some value → wanted value = true

variable {slots : UInt32 → Option Value} {wanted : Value → Bool}
variable {start first second stop : UInt32}

theorem before_iff :
    Before start first second ↔
      (first - start).toNat < (second - start).toNat :=
  UInt32.lt_iff_toNat_lt

theorem not_before_self : ¬Before start first first := by
  rw [before_iff]
  omega

/-- The slots that a walk has left after its first slot. -/
theorem toNat_sub_succ (slot start : UInt32) :
    (slot - (start + 1)).toNat =
      ((slot - start).toNat + 4294967295) % 4294967296 := by
  simp only [UInt32.toNat_sub, UInt32.toNat_add, UInt32.toNat_one]
  have slotBound := slot.toNat_lt
  have startBound := start.toNat_lt
  omega

theorem eq_of_toNat_sub (same : (stop - start).toNat = 0) : stop = start := by
  have zero : stop - start = 0 := UInt32.toNat_inj.mp same
  calc
    stop = stop - start + start := by rw [UInt32.sub_add_cancel]
    _ = start := by rw [zero, UInt32.zero_add]

/-- A walk that passes everything before its end finds the end. -/
theorem probe_eq {probes : Nat} (passes : Passes slots wanted start stop)
    (ends : Ends slots wanted stop)
    (near : (stop - start).toNat < probes) :
    probe slots wanted probes start = some (stop, slots stop) := by
  induction probes generalizing start with
  | zero => omega
  | succ probes ih =>
      unfold probe
      by_cases here : (stop - start).toNat = 0
      · obtain rfl := eq_of_toNat_sub here
        cases content : slots stop with
        | none => rfl
        | some value => simp [ends value content]
      · have passed : Before start start stop := by
          rw [before_iff, UInt32.sub_self]
          exact Nat.pos_of_ne_zero here
        obtain ⟨value, content, unwanted⟩ := passes start passed
        simp only [content, unwanted, Bool.false_eq_true, if_false]
        have left := toNat_sub_succ stop start
        have bound := (stop - start).toNat_lt
        apply ih
        · intro slot before
          apply passes slot
          rw [before_iff] at before ⊢
          have slotLeft := toNat_sub_succ slot start
          have slotBound := (slot - start).toNat_lt
          omega
        · omega

/-- What a search returns is the end of its walk. -/
theorem probe_end {probes : Nat} {content : Option Value}
    (found : probe slots wanted probes start = some (stop, content)) :
    Passes slots wanted start stop ∧ Ends slots wanted stop ∧
      content = slots stop := by
  induction probes generalizing start with
  | zero => simp [probe] at found
  | succ probes ih =>
      unfold probe at found
      have passesNone : Passes slots wanted start start := by
        intro slot before
        rw [before_iff, UInt32.sub_self] at before
        simp at before
      cases here : slots start with
      | none =>
          simp only [here] at found
          obtain ⟨rfl, rfl⟩ := Prod.mk.inj (Option.some.inj found)
          exact ⟨passesNone, fun value content => by simp [here] at content,
            here.symm⟩
      | some value =>
          simp only [here] at found
          split at found
          · next isWanted =>
              obtain ⟨rfl, rfl⟩ := Prod.mk.inj (Option.some.inj found)
              refine ⟨passesNone, fun other content => ?_, here.symm⟩
              rw [here] at content
              exact Option.some.inj content ▸ isWanted
          · next unwanted =>
              obtain ⟨passes, ends, contentEq⟩ := ih found
              have unwanted : wanted value = false := by simpa using unwanted
              have left := toNat_sub_succ stop start
              have bound := (stop - start).toNat_lt
              have moved : (stop - start).toNat ≠ 0 := by
                intro zero
                obtain rfl := eq_of_toNat_sub zero
                rw [ends value here] at unwanted
                simp at unwanted
              refine ⟨fun slot before => ?_, ends, contentEq⟩
              by_cases first : (slot - start).toNat = 0
              · obtain rfl := eq_of_toNat_sub first
                exact ⟨value, here, unwanted⟩
              · apply passes slot
                rw [before_iff] at before ⊢
                have slotLeft := toNat_sub_succ slot start
                have slotBound := (slot - start).toNat_lt
                omega

/-- A walk has one end. -/
theorem end_unique (firstPasses : Passes slots wanted start first)
    (firstEnds : Ends slots wanted first)
    (secondPasses : Passes slots wanted start second)
    (secondEnds : Ends slots wanted second) : first = second := by
  rcases Nat.lt_trichotomy (first - start).toNat (second - start).toNat with
    before | same | after
  · obtain ⟨value, content, unwanted⟩ :=
      secondPasses first (before_iff.mpr before)
    simp [firstEnds value content] at unwanted
  · have offset : first - start = second - start := UInt32.toNat_inj.mp same
    calc
      first = first - start + start := by rw [UInt32.sub_add_cancel]
      _ = second - start + start := by rw [offset]
      _ = second := by rw [UInt32.sub_add_cancel]
  · obtain ⟨value, content, unwanted⟩ :=
      firstPasses second (before_iff.mpr after)
    simp [secondEnds value content] at unwanted

private theorem toNat_ofNat {offset : Nat} (small : offset < 4294967296) :
    (UInt32.ofNat offset).toNat = offset := by
  rw [UInt32.toNat_ofNat']
  omega

private theorem add_ofNat_sub (start : UInt32) (offset : Nat) :
    start + UInt32.ofNat offset - start = UInt32.ofNat offset := by
  rw [UInt32.add_comm, UInt32.add_sub_cancel]

theorem exists_end (wanted : Value → Bool) {taken : List UInt32}
    (all : ∀ slot, slots slot ≠ none → slot ∈ taken)
    (room : taken.length < 4294967296) (start : UInt32) :
    ∃ stop, Passes slots wanted start stop ∧ Ends slots wanted stop ∧
      (stop - start).toNat < taken.length + 1 := by
  have some_ : ∃ offset, offset < taken.length + 1 ∧
      Ends slots wanted (start + UInt32.ofNat offset) := by
    by_contra none
    push Not at none
    let walk := (List.range (taken.length + 1)).map
      fun offset => start + UInt32.ofNat offset
    have distinct : walk.Nodup := by
      apply List.Nodup.map_on _ List.nodup_range
      intro offset inRange other otherInRange same
      have inRange := List.mem_range.mp inRange
      have otherInRange := List.mem_range.mp otherInRange
      have same : UInt32.ofNat offset = UInt32.ofNat other := by
        rw [← add_ofNat_sub start offset, same, add_ofNat_sub]
      have small : offset < 4294967296 := by omega
      rw [← toNat_ofNat small, same, toNat_ofNat (by omega)]
    have subset : walk ⊆ taken := by
      intro slot member
      obtain ⟨offset, inRange, rfl⟩ := List.mem_map.mp member
      apply all
      intro free
      apply none offset (List.mem_range.mp inRange)
      intro value content
      rw [free] at content
      simp at content
    have long := (distinct.subperm subset).length_le
    simp only [walk, List.length_map, List.length_range] at long
    omega
  classical
  let offset := Nat.find some_
  obtain ⟨near, ends⟩ := Nat.find_spec some_
  have offsetNat : (UInt32.ofNat offset).toNat = offset :=
    toNat_ofNat (by omega)
  refine ⟨start + UInt32.ofNat offset, ?_, ends, ?_⟩
  · intro slot before
    rw [before_iff, add_ofNat_sub, offsetNat] at before
    have earlier := Nat.find_min some_ before
    have slotEq : start + UInt32.ofNat (slot - start).toNat = slot := by
      rw [UInt32.ofNat_toNat, UInt32.add_comm, UInt32.sub_add_cancel]
    rw [slotEq] at earlier
    by_contra blocked
    apply earlier
    refine ⟨by omega, fun value content => ?_⟩
    by_contra unwanted
    exact blocked ⟨value, content, by simpa using unwanted⟩
  · rw [add_ofNat_sub, offsetNat]
    exact near

/-- A search finds the wanted value that a walk leads to. -/
theorem probe_found {taken : List UInt32} {value : Value}
    (all : ∀ slot, slots slot ≠ none → slot ∈ taken)
    (room : taken.length < 4294967296)
    (passes : Passes slots wanted start stop)
    (content : slots stop = some value) (isWanted : wanted value = true) :
    probe slots wanted (taken.length + 1) start = some (stop, some value) := by
  have ends : Ends slots wanted stop := by
    intro other otherContent
    rw [content] at otherContent
    obtain rfl := Option.some.inj otherContent
    exact isWanted
  obtain ⟨last, lastPasses, lastEnds, near⟩ :=
    exists_end wanted all room start
  obtain rfl := end_unique lastPasses lastEnds passes ends
  rw [probe_eq passes ends near, content]

/-- A search for a value that is not kept ends at the first free slot. -/
theorem probe_missing {taken : List UInt32}
    (all : ∀ slot, slots slot ≠ none → slot ∈ taken)
    (room : taken.length < 4294967296)
    (missing : ∀ slot value, slots slot = some value → wanted value = false)
    (start : UInt32) :
    ∃ free, probe slots wanted (taken.length + 1) start = some (free, none) ∧
      slots free = none ∧
      ∀ slot, Before start slot free → slots slot ≠ none := by
  obtain ⟨free, passes, ends, near⟩ :=
    exists_end wanted all room start
  have empty : slots free = none := by
    cases content : slots free with
    | none => rfl
    | some value =>
        have isWanted := ends value content
        rw [missing free value content] at isWanted
        simp at isWanted
  refine ⟨free, ?_, empty, fun slot before => ?_⟩
  · rw [probe_eq passes ends near, empty]
  · obtain ⟨value, content, -⟩ := passes slot before
    simp [content]

end Probing

end SimpleCache
