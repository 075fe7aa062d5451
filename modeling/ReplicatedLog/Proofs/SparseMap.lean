import ReplicatedLog.Proofs.Extent

/-!
# Windows as sparse maps

What a window holds can be said without a word about where its records lie. A sparse map has a record for
every slot, blank where nothing was stored, and two marks: the low mark, below which slots are given up,
and the highest slot that was stored at or passed over, kept as a running maximum (`SparseMap`).

A window and a map that go through the same changes stay in step (`Window.Refines`): there is one lemma
for each kind of change (`Refines.store`, `Refines.raise`), and from these one for all that happens to a
window (`refines_of_changes`). So everything that is read off a window is what the map says
(`Window.reads_as_sparse_map`).
-/

namespace ReplicatedLog

/-- A record for every slot. -/
structure SparseMap (α : Type) where
  /-- The least slot that is not given up. -/
  low : Nat
  /-- The highest slot that was stored at or passed over. -/
  seen : Nat
  /-- The records. Those of slots that are given up do not count. -/
  record : Nat → α

/-- A change of a window. -/
inductive Window.Change (α : Type) where
  /-- A slot is asked for to be written, and its record is changed. -/
  | store (slot : Nat) (f : α → α)
  /-- The slots below a mark are given up. -/
  | raise (below : Nat)

/-- The slot or the mark that a change is about. -/
def Window.Change.slot {α : Type} : Window.Change α → Nat
  | .store slot _ => slot
  | .raise below => below

variable {α : Type}

/-! ### Sparse maps -/

namespace SparseMap

/-- Nothing is stored, and no slot is given up. Slots start at 1. -/
def blank [Inhabited α] : SparseMap α := ⟨1, 0, fun _ => default⟩

/-- Changes the record of a slot, unless the slot is given up. -/
def store (m : SparseMap α) (slot : Nat) (f : α → α) : SparseMap α :=
  if slot < m.low then m
  else
    { m with
      seen := max m.seen slot
      record := fun t => if t = slot then f (m.record t) else m.record t }

/-- Gives up the slots below a mark. The low mark never falls. -/
def raise (m : SparseMap α) (below : Nat) : SparseMap α :=
  if below ≤ m.low then m
  else { m with low := below, seen := max m.seen (below - 1) }

/-- The map after a change. -/
def change (m : SparseMap α) : Window.Change α → SparseMap α
  | .store slot f => m.store slot f
  | .raise below => m.raise below

variable (m : SparseMap α)

@[simp]
theorem low_store (slot : Nat) (f : α → α) : (m.store slot f).low = m.low := by
  unfold store
  split <;> rfl

theorem seen_store (slot : Nat) (f : α → α) :
    (m.store slot f).seen = if slot < m.low then m.seen else max m.seen slot := by
  unfold store
  split <;> rfl

theorem record_store (slot t : Nat) (f : α → α) : (m.store slot f).record t =
    if t = slot ∧ m.low ≤ slot then f (m.record t) else m.record t := by
  unfold store
  split
  · rw [if_neg (by omega)]
  · have hlow : m.low ≤ slot := by omega
    simp [hlow]

@[simp]
theorem low_raise (below : Nat) : (m.raise below).low = max m.low below := by
  unfold raise
  split <;> simp <;> omega

theorem seen_raise (below : Nat) : (m.raise below).seen =
    if below ≤ m.low then m.seen else max m.seen (below - 1) := by
  unfold raise
  split <;> rfl

@[simp]
theorem record_raise (below : Nat) : (m.raise below).record = m.record := by
  unfold raise
  split <;> rfl

variable {m}

/-- Only what changes are about is seen. -/
theorem seen_lt_of_changes {b : Nat} {changes : List (Window.Change α)} (hm : m.seen < b)
    (h : ∀ c ∈ changes, c.slot < b) : (changes.foldl change m).seen < b := by
  refine List.foldlRecOn (motive := fun m : SparseMap α => m.seen < b) _ _ hm fun m hm c hc => ?_
  have hslot := h c hc
  cases c with
  | store slot f =>
    change (m.store slot f).seen < b
    rw [seen_store]
    split
    · exact hm
    · exact Nat.max_lt.mpr ⟨hm, hslot⟩
  | raise below =>
    change (m.raise below).seen < b
    rw [seen_raise]
    split
    · exact hm
    · exact Nat.max_lt.mpr ⟨hm, (Nat.sub_le below 1).trans_lt hslot⟩

end SparseMap

namespace Window

variable [Inhabited α] {w : Window α} {m : SparseMap α}

/-- The window after a change. -/
def change (w : Window α) : Change α → Window α
  | .store slot f => w.modify slot f
  | .raise below => w.raise below

/-- A window holds the records of a map, from the low mark up to the highest slot that was seen. -/
structure Refines (w : Window α) (m : SparseMap α) : Prop where
  /-- They have the same low mark. -/
  low_eq : w.low = m.low
  /-- Slots start at 1. -/
  low_pos : 0 < m.low
  /-- The window ends with the highest slot that was seen. -/
  stop_eq : w.stop = m.seen + 1
  /-- From the low mark on they have the same records, if what is not held counts as blank. -/
  record_eq : ∀ slot, m.low ≤ slot → (w.get? slot).getD default = m.record slot

/-! ### Staying in step -/

theorem refines_blank : Refines ({} : Window α) SparseMap.blank where
  low_eq := rfl
  low_pos := Nat.one_pos
  stop_eq := rfl
  record_eq := fun slot _ => congrArg (Option.getD · default) (get?_empty slot)

theorem Refines.store (h : w.Refines m) (slot : Nat) (f : α → α) :
    (w.modify slot f).Refines (m.store slot f) where
  low_eq := by simpa using h.low_eq
  low_pos := by simpa using h.low_pos
  stop_eq := by
    rw [stop_modify, stop_touch, h.stop_eq, h.low_eq, SparseMap.seen_store]
    split <;> omega
  record_eq := fun t ht => by
    rw [SparseMap.low_store] at ht
    rw [getD_get?_modify, SparseMap.record_store, h.low_eq, h.record_eq t ht]

theorem Refines.raise (h : w.Refines m) (below : Nat) : (w.raise below).Refines (m.raise below) where
  low_eq := by rw [low_raise, SparseMap.low_raise, h.low_eq]
  low_pos := by
    rw [SparseMap.low_raise]
    exact h.low_pos.trans_le (Nat.le_max_left _ _)
  stop_eq := by
    -- a mark that does not rise is not beyond the end of the window
    have hlow : m.low ≤ m.seen + 1 := h.stop_eq ▸ h.low_eq ▸ Nat.le_add_right w.low w.length
    rw [stop_raise, h.stop_eq, SparseMap.seen_raise]
    split <;> omega
  record_eq := fun t ht => by
    rw [SparseMap.low_raise, Nat.max_le] at ht
    rw [getD_get?_raise, if_neg (Nat.not_lt.mpr ht.2), SparseMap.record_raise, h.record_eq t ht.1]

/-- **Window and map stay in step.** -/
theorem refines_of_changes (changes : List (Change α)) (h : w.Refines m) :
    (changes.foldl change w).Refines (changes.foldl SparseMap.change m) := by
  induction changes generalizing w m with
  | nil => exact h
  | cons c changes ih =>
    cases c with
    | store slot f => exact ih (h.store slot f)
    | raise below => exact ih (h.raise below)

/-! ### Reading -/

theorem Refines.highest_eq (h : w.Refines m) : w.highest = m.seen := congrArg (· - 1) h.stop_eq

theorem Refines.get?_eq (h : w.Refines m) (slot : Nat) :
    w.get? slot = if m.low ≤ slot ∧ slot ≤ m.seen then some (m.record slot) else none := by
  have hheld : (w.get? slot).isSome ↔ m.low ≤ slot ∧ slot ≤ m.seen := by
    rw [isSome_get?_iff_le_highest (h.low_eq ▸ h.low_pos), h.low_eq, h.highest_eq]
  split
  · rename_i hin
    obtain ⟨entry, hentry⟩ := Option.isSome_iff_exists.mp (hheld.mpr hin)
    rw [← h.record_eq slot hin.1, hentry]
    rfl
  · rename_i hout
    exact Option.not_isSome_iff_eq_none.mp fun hsome => hout (hheld.mp hsome)

/-- A slot that is asked for to be written shows its record, unless it is given up. -/
theorem Refines.get?_touch_eq (h : w.Refines m) (slot : Nat) :
    (w.touch slot).get? slot = if slot < m.low then none else some (m.record slot) := by
  split
  · rename_i hlow
    exact get?_of_lt_low (by rwa [low_touch, h.low_eq])
  · rename_i hlow
    have hle : m.low ≤ slot := Nat.not_lt.mp hlow
    rw [get?_touch, if_pos ⟨h.low_eq.trans_le hle, Nat.le_refl slot⟩, h.record_eq slot hle]

theorem Refines.mem_range_iff (h : w.Refines m) {first last : Nat} {held : List (Nat × α)}
    (hrange : w.range first last = .ok held) {slot : Nat} {entry : α} : (slot, entry) ∈ held ↔
      max first m.low ≤ slot ∧ slot ≤ min last m.seen ∧ entry = m.record slot := by
  have hget : w.get? slot = some entry ↔
      (m.low ≤ slot ∧ slot ≤ m.seen) ∧ entry = m.record slot := by
    rw [h.get?_eq, Option.ite_none_right_eq_some, Option.some.injEq, eq_comm (a := entry)]
  rw [mem_of_range hrange, hget, Nat.max_le, Nat.le_min]
  constructor
  · rintro ⟨hfirst, hlast, ⟨hlow, hseen⟩, hentry⟩
    exact ⟨⟨hfirst, hlow⟩, ⟨hlast, hseen⟩, hentry⟩
  · rintro ⟨⟨hfirst, hlow⟩, ⟨hlast, hseen⟩, hentry⟩
    exact ⟨hfirst, hlast, ⟨hlow, hseen⟩, hentry⟩

/-- **A window reads as a sparse map.** Records are stored and slots are given up, in any order and at any
slots short of the greatest word, starting from an empty window. Then the low mark is that of the map, and
the window ends with the highest slot that was seen. A slot between these marks shows the record of the
map, and no other slot shows one. A slot is refused to be written exactly if it is given up; otherwise it
shows the record of the map, also beyond the end. A range, wherever its ends are, lists the slots between
its ends and between the marks, each once and in ascending order, with the records of the map. -/
theorem reads_as_sparse_map (changes : List (Change α)) (hslots : ∀ c ∈ changes, c.slot < Word.top) :
    let w := changes.foldl change ({} : Window α)
    let m := changes.foldl SparseMap.change SparseMap.blank
    w.low = m.low ∧ (w.highest = m.seen ∧ w.low + w.length = m.seen + 1) ∧
    (∀ slot, w.get? slot = if m.low ≤ slot ∧ slot ≤ m.seen then some (m.record slot) else none) ∧
    (∀ slot, (w.touch slot).get? slot = if slot < m.low then none else some (m.record slot)) ∧
    ∀ first last, ∃ held, w.range first last = .ok held ∧ (held.map Prod.fst).Pairwise (· < ·) ∧
      ∀ slot entry, (slot, entry) ∈ held ↔
        max first m.low ≤ slot ∧ slot ≤ min last m.seen ∧ entry = m.record slot := by
  intro w m
  have h : w.Refines m := refines_of_changes changes refines_blank
  have hseen : m.seen < Word.top := SparseMap.seen_lt_of_changes (Nat.succ_pos _) hslots
  have hstop : w.stop < Word.size := h.stop_eq.trans_lt (Nat.succ_lt_succ hseen)
  refine ⟨h.low_eq, ⟨h.highest_eq, h.stop_eq⟩, h.get?_eq, h.get?_touch_eq, fun first last => ?_⟩
  obtain ⟨held, hrange⟩ := exists_range hstop first last
  exact ⟨held, hrange, sorted_of_range hrange, fun _ _ => h.mem_range_iff hrange⟩

/-- Slot 2 is passed over together with slots 3 and 4, which were never stored at. Slots 9 and 6 are stored
at in this order, then slot 5 is given up and refused, a lower mark changes nothing, and slot 6 is changed
again. A range over all slots lists slots 6 to 9, two of them blank. -/
theorem reads_as_sparse_map_of_gaps : ∃ changes : List (Change Nat),
    (∀ c ∈ changes, c.slot < Word.top) ∧
    ∃ w : Window Nat, changes.foldl change {} = w ∧ w.low = 6 ∧ w.highest = 9 ∧
      w.get? 5 = none ∧ w.get? 7 = some 0 ∧ (w.touch 5).get? 5 = none ∧ (w.touch 9).get? 9 = some 90 ∧
      ∃ held, w.range 0 Word.top = .ok held ∧ (held.map Prod.fst).Pairwise (· < ·) ∧
        ∀ slot entry, (slot, entry) ∈ held ↔
          6 ≤ slot ∧ slot ≤ 9 ∧ entry = if slot = 6 then 61 else if slot = 9 then 90 else 0 := by
  let changes : List (Change Nat) := [.store 2 fun _ => 20, .raise 5, .store 9 fun _ => 90,
    .store 6 fun _ => 60, .raise 6, .store 5 fun _ => 50, .raise 3, .store 6 (· + 1)]
  have hslots : ∀ c ∈ changes, c.slot < Word.top := by decide
  have hrecord : ∀ slot, 6 ≤ slot → (changes.foldl SparseMap.change SparseMap.blank).record slot =
      if slot = 6 then 61 else if slot = 9 then 90 else 0 := by
    intro slot hslot
    have h2 : slot ≠ 2 := by omega
    have h5 : slot ≠ 5 := by omega
    by_cases h6 : slot = 6 <;>
      simp [changes, SparseMap.change, SparseMap.record_store, SparseMap.blank, h2, h5, h6]
  have hlow : (changes.foldl SparseMap.change SparseMap.blank).low = 6 := rfl
  have hseen : (changes.foldl SparseMap.change SparseMap.blank).seen = 9 := rfl
  have hmap := reads_as_sparse_map changes hslots
  dsimp only at hmap
  rw [hlow, hseen] at hmap
  obtain ⟨hwlow, ⟨hhighest, -⟩, hget, htouch, hrange⟩ := hmap
  obtain ⟨held, hheld, hsorted, hmem⟩ := hrange 0 Word.top
  refine ⟨changes, hslots, _, rfl, hwlow, hhighest, hget 5, hget 7, htouch 5, htouch 9,
    held, hheld, hsorted, fun slot entry => (hmem slot entry).trans ?_⟩
  constructor
  · rintro ⟨hfirst, hlast, rfl⟩
    exact ⟨hfirst, hlast, hrecord slot hfirst⟩
  · rintro ⟨hfirst, hlast, rfl⟩
    exact ⟨hfirst, hlast, (hrecord slot hfirst).symm⟩

end Window

end ReplicatedLog
