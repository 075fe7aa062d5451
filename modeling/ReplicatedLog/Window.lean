import ReplicatedLog.Word

/-!
# Windows of slots

Each role keeps a record per slot, for the slots of a window that moves up the log. Below the low
mark slots are gone for good. From the low mark on, slots are held without a gap up to the highest
slot that was ever touched; a slot that nobody wrote holds the blank record `default`.

* `Window.get?` — the record of a slot, if it is held. Windows are described through it.
* `Window.touch`, `Window.modify` — make a slot held; change its record.
* `Window.raise` — raise the low mark and forget what is below.
* `Window.range` — the held slots of a range, in ascending order.

The lemmas say what each operation does to the records (`get?_touch`, `get?_modify`, `get?_raise`)
and to the two ends of the window, and which slots a range lists (`mem_of_range`,
`sorted_of_range`).
-/

namespace ReplicatedLog

/-- The records of a run of slots. -/
structure Window (α : Type) where
  /-- The least slot that can be held. -/
  low : Nat := 1
  /-- The records of the slots from `low` on. -/
  entries : Array α := #[]
  deriving DecidableEq, Repr

namespace Window

variable {α : Type}

/-- The number of slots held. -/
def length (w : Window α) : Nat := w.entries.size

/-- The highest slot that was touched or passed over: the last one held, or if none is held the one
below the low mark. -/
def highest (w : Window α) : Nat := w.low + w.entries.size - 1

/-- The record of a slot; `none` below the low mark and beyond the slots held. -/
def get? (w : Window α) (slot : Nat) : Option α :=
  if slot < w.low then none else w.entries[slot - w.low]?

/-- Holds `slot`, and every slot from the low mark up to it, with blank records where there were
none. Below the low mark nothing happens. -/
def touch [Inhabited α] (w : Window α) (slot : Nat) : Window α :=
  if slot < w.low then w
  else
    { w with
      entries := w.entries ++ Array.replicate (slot - w.low + 1 - w.entries.size) default }

/-- Holds `slot` and changes its record. Below the low mark nothing happens. -/
def modify [Inhabited α] (w : Window α) (slot : Nat) (f : α → α) : Window α :=
  if slot < w.low then w
  else
    let touched := w.touch slot
    { touched with entries := touched.entries.modify (slot - w.low) f }

/-- Raises the low mark to `below` and forgets the slots under it. The mark never falls. -/
def raise (w : Window α) (below : Nat) : Window α :=
  if below ≤ w.low then w
  else
    { low := below
      entries := w.entries.extract (below - w.low) w.entries.size }

/-- The slots `first ≤ slot ≤ last` that are held, in ascending order, with their records. The first
slot beyond those held has to fit in a word. -/
def range (w : Window α) (first last : Nat) : Checked (List (Nat × α)) := do
  let stop ← Word.fit (w.low + w.entries.size)
  let first := max first w.low
  let last := min last (stop - 1)
  return (List.range' first (last + 1 - first)).filterMap fun slot =>
    (w.get? slot).map fun entry => (slot, entry)

/-- The records from `slot` on, as far as they are held; none if `slot` itself is not held. -/
def entriesFrom (w : Window α) (slot : Nat) : List α :=
  if slot < w.low then []
  else (w.entries.extract (slot - w.low) w.entries.size).toList

/-- All slots that are held, in ascending order, with their records. -/
def toList (w : Window α) : List (Nat × α) :=
  (List.range' w.low w.entries.size).zip w.entries.toList

/-! ### What is held -/

/-- A slot is held from the low mark on, without a gap. -/
theorem isSome_get?_iff {w : Window α} {slot : Nat} :
    (w.get? slot).isSome ↔ w.low ≤ slot ∧ slot < w.low + w.length := by
  unfold get? length
  split
  · simp only [Option.isSome_none, Bool.false_eq_true, false_iff]
    omega
  · rw [Option.isSome_iff_ne_none, ne_eq, Array.getElem?_eq_none_iff]
    omega

theorem get?_eq_none_iff {w : Window α} {slot : Nat} :
    w.get? slot = none ↔ slot < w.low ∨ w.low + w.length ≤ slot := by
  rw [← Option.not_isSome_iff_eq_none, isSome_get?_iff]
  omega

theorem low_le_of_get? {w : Window α} {slot : Nat} {entry : α} (h : w.get? slot = some entry) :
    w.low ≤ slot := (isSome_get?_iff.mp (Option.isSome_of_mem h)).1

theorem get?_of_lt_low {w : Window α} {slot : Nat} (h : slot < w.low) : w.get? slot = none :=
  get?_eq_none_iff.mpr (Or.inl h)

/-- Where the low mark is at least one, the highest slot is the last one held. -/
theorem isSome_get?_iff_le_highest {w : Window α} (h : 0 < w.low) {slot : Nat} :
    (w.get? slot).isSome ↔ w.low ≤ slot ∧ slot ≤ w.highest := by
  rw [isSome_get?_iff]
  unfold highest length
  omega

@[simp]
theorem get?_empty (slot : Nat) : ({} : Window α).get? slot = none := by
  rw [get?_eq_none_iff]
  simp only [length, List.size_toArray, List.length_nil]
  omega

/-! ### Touching -/

section Touch

variable [Inhabited α]

@[simp]
theorem low_touch (w : Window α) (slot : Nat) : (w.touch slot).low = w.low := by
  unfold touch
  split <;> rfl

theorem length_touch (w : Window α) (slot : Nat) :
    (w.touch slot).length = if slot < w.low then w.length else max w.length (slot - w.low + 1) := by
  unfold touch length
  split
  · rfl
  · rw [Array.size_append, Array.size_replicate]
    omega

/-- Touching makes blank what was not held, up to the slot, and changes no record. -/
theorem get?_touch (w : Window α) (slot t : Nat) :
    (w.touch slot).get? t =
      if w.low ≤ t ∧ t ≤ slot then some ((w.get? t).getD default) else w.get? t := by
  by_cases hlow : slot < w.low
  · rw [if_neg (by omega)]
    simp only [touch, if_pos hlow]
  · by_cases ht : t < w.low
    · rw [if_neg (by omega)]
      simp only [touch, if_neg hlow, get?, if_pos ht]
    · simp only [touch, if_neg hlow, get?, if_neg ht]
      by_cases hsize : t - w.low < w.entries.size
      · rw [Array.getElem?_append_left hsize, Array.getElem?_eq_getElem hsize]
        split <;> rfl
      · rw [Array.getElem?_append_right (by omega), Array.getElem?_replicate,
          Array.getElem?_eq_none (by omega : w.entries.size ≤ t - w.low)]
        by_cases hslot : t ≤ slot
        · rw [if_pos (by omega), if_pos (by omega)]
          rfl
        · rw [if_neg (by omega), if_neg (by omega)]

/-! ### Changing records -/

@[simp]
theorem low_modify (w : Window α) (slot : Nat) (f : α → α) : (w.modify slot f).low = w.low := by
  unfold modify
  split
  · rfl
  · exact low_touch w slot

theorem length_modify (w : Window α) (slot : Nat) (f : α → α) :
    (w.modify slot f).length = (w.touch slot).length := by
  unfold modify
  split
  · rename_i h
    rw [length_touch, if_pos h]
  · exact Array.size_modify

/-- Changing a record makes its slot held, and changes no other record. -/
theorem get?_modify (w : Window α) (slot t : Nat) (f : α → α) :
    (w.modify slot f).get? t =
      if t = slot then ((w.touch slot).get? t).map f else (w.touch slot).get? t := by
  by_cases hlow : slot < w.low
  · have htouch : w.touch slot = w := by simp only [touch, if_pos hlow]
    have hmodify : w.modify slot f = w := by simp only [modify, if_pos hlow]
    rw [htouch, hmodify]
    split
    · rename_i h
      rw [get?_of_lt_low (h ▸ hlow)]
      rfl
    · rfl
  · by_cases ht : t < w.low
    · rw [if_neg (by omega), get?_of_lt_low (by rwa [low_modify]),
        get?_of_lt_low (by rwa [low_touch])]
    · simp only [modify, if_neg hlow, get?, low_touch, if_neg ht, Array.getElem?_modify]
      by_cases h : t = slot
      · rw [if_pos h, if_pos (by omega)]
      · rw [if_neg h, if_neg (by omega)]

end Touch

/-! ### Raising the low mark -/

@[simp]
theorem low_raise (w : Window α) (below : Nat) : (w.raise below).low = max w.low below := by
  unfold raise
  split
  · omega
  · simp only
    omega

theorem length_raise (w : Window α) (below : Nat) :
    (w.raise below).length = w.length - (below - w.low) := by
  unfold raise length
  split
  · rename_i h
    rw [Nat.sub_eq_zero_of_le h, Nat.sub_zero]
  · simp only [Array.size_extract]
    omega

/-- Raising the low mark forgets what is below it, and changes no record. -/
theorem get?_raise (w : Window α) (below t : Nat) :
    (w.raise below).get? t = if t < below then none else w.get? t := by
  by_cases hbelow : below ≤ w.low
  · have hraise : w.raise below = w := by simp only [raise, if_pos hbelow]
    rw [hraise]
    split
    · exact get?_of_lt_low (by omega)
    · rfl
  · simp only [raise, if_neg hbelow, get?]
    by_cases ht : t < below
    · rw [if_pos ht, if_pos ht]
    · rw [if_neg ht, if_neg ht, if_neg (by omega), Array.getElem?_extract]
      have hindex : below - w.low + (t - below) = t - w.low := by omega
      rw [hindex]
      split
      · rfl
      · exact (Array.getElem?_eq_none (by omega)).symm

/-! ### Views

That a slot is held cannot be seen in its record, if what is not held counts as blank. A part of a
record that blank records do not have, such as the value of a vote, is read through a function `f`
that is `none` on blank records. -/

section Views

variable {β : Type} [Inhabited α] {f : α → Option β}

/-- Touching adds blank records only. -/
@[simp]
theorem getD_get?_touch (w : Window α) (slot t : Nat) :
    ((w.touch slot).get? t).getD default = (w.get? t).getD default := by
  rw [get?_touch]
  split <;> rfl

/-- Changing a record shows at its own slot, if that is not below the low mark. -/
theorem getD_get?_modify (w : Window α) (slot t : Nat) (g : α → α) :
    ((w.modify slot g).get? t).getD default =
      if t = slot ∧ w.low ≤ slot then g ((w.get? t).getD default) else (w.get? t).getD default := by
  rw [get?_modify]
  by_cases ht : t = slot
  · subst ht
    by_cases hlow : w.low ≤ t
    · rw [if_pos rfl, if_pos ⟨rfl, hlow⟩, get?_touch, if_pos ⟨hlow, Nat.le_refl t⟩]
      rfl
    · have hw : w.get? t = none := get?_of_lt_low (by omega)
      rw [if_pos rfl, if_neg (fun h => hlow h.2), get?_touch, if_neg (fun h => hlow h.1), hw]
      rfl
  · rw [if_neg ht, if_neg (fun h => ht h.1), getD_get?_touch]

/-- Raising the low mark hides what is below it. -/
theorem getD_get?_raise (w : Window α) (below t : Nat) :
    ((w.raise below).get? t).getD default =
      if t < below then default else (w.get? t).getD default := by
  rw [get?_raise]
  split <;> rfl

/-- A window is known by its low mark, its length and its records, where what is not held counts as
blank. -/
theorem eq_of_getD {w w' : Window α} (hlow : w.low = w'.low) (hlength : w.length = w'.length)
    (h : ∀ t, (w.get? t).getD default = (w'.get? t).getD default) : w = w' := by
  obtain ⟨low, entries⟩ := w
  obtain ⟨low', entries'⟩ := w'
  obtain rfl : low = low' := hlow
  congr 1
  refine Array.ext hlength fun i hi hi' => ?_
  have hentry := h (low + i)
  have hheld : ¬ low + i < low := by omega
  simpa [get?, hheld, hi, hi'] using hentry

/-- Changing a record twice is changing it once. -/
theorem modify_modify (w : Window α) (slot : Nat) (g g' : α → α) :
    (w.modify slot g).modify slot g' = w.modify slot fun e => g' (g e) := by
  refine eq_of_getD (by simp) ?_ fun t => ?_
  · simp only [length_modify, length_touch, low_modify]
    split <;> omega
  · simp only [getD_get?_modify, low_modify]
    split <;> rfl

/-- Records of different slots can be changed in any order. -/
theorem modify_comm (w : Window α) {slot slot' : Nat} (h : slot ≠ slot') (g g' : α → α) :
    (w.modify slot g).modify slot' g' = (w.modify slot' g').modify slot g := by
  refine eq_of_getD (by simp) ?_ fun t => ?_
  · simp only [length_modify, length_touch, low_modify]
    split <;> split <;> omega
  · simp only [getD_get?_modify, low_modify]
    by_cases ht : t = slot
    · simp [ht, h]
    · simp [ht]

/-- Touching a slot that is held changes nothing, and neither does it below the low mark. -/
theorem touch_eq_self (w : Window α) {slot : Nat} (h : w.low ≤ slot → slot < w.low + w.length) :
    w.touch slot = w := by
  refine eq_of_getD (low_touch w slot) ?_ fun t => getD_get?_touch w slot t
  rw [length_touch]
  split
  · rfl
  · have hheld := h (by omega)
    omega

/-- Changing a record that is held into itself changes nothing, and neither does any change below the
low mark. -/
theorem modify_eq_self (w : Window α) {slot : Nat} {g : α → α}
    (h : w.low ≤ slot → slot < w.low + w.length ∧
      g ((w.get? slot).getD default) = (w.get? slot).getD default) : w.modify slot g = w := by
  refine eq_of_getD (low_modify w slot g) ?_ fun t => ?_
  · rw [length_modify, touch_eq_self w fun hlow => (h hlow).1]
  · rw [getD_get?_modify]
    split
    · rename_i ht
      obtain ⟨rfl, hlow⟩ := ht
      exact (h hlow).2
    · rfl

theorem bind_get? (hf : f default = none) (w : Window α) (t : Nat) :
    (w.get? t).bind f = f ((w.get? t).getD default) := by
  cases w.get? t with
  | none => exact hf.symm
  | some _ => rfl

theorem bind_get?_touch (hf : f default = none) (w : Window α) (slot t : Nat) :
    ((w.touch slot).get? t).bind f = (w.get? t).bind f := by
  rw [bind_get? hf, bind_get? hf, getD_get?_touch]

theorem bind_get?_modify (hf : f default = none) (w : Window α) (slot t : Nat) (g : α → α) :
    ((w.modify slot g).get? t).bind f =
      if t = slot ∧ w.low ≤ slot then f (g ((w.get? t).getD default)) else (w.get? t).bind f := by
  rw [bind_get? hf, bind_get? hf, getD_get?_modify]
  split <;> rfl

omit [Inhabited α] in
theorem bind_get?_raise (w : Window α) (below t : Nat) :
    ((w.raise below).get? t).bind f = if t < below then none else (w.get? t).bind f := by
  rw [get?_raise]
  split <;> rfl

end Views

/-! ### Ranges -/

/-- The records from a slot on are those of the slots from it on. -/
theorem get?_of_entriesFrom {w : Window α} {slot k : Nat} {entry : α}
    (h : (w.entriesFrom slot)[k]? = some entry) : w.get? (slot + k) = some entry := by
  unfold entriesFrom at h
  split at h
  · cases h
  · rw [Array.getElem?_toList, Array.getElem?_extract] at h
    split at h
    · rw [get?, if_neg (by omega), ← h]
      congr 1
      omega
    · cases h

/-- The records from a slot on, as far as they are held. -/
theorem getElem?_entriesFrom {w : Window α} {slot : Nat} (h : w.low ≤ slot) (k : Nat) :
    (w.entriesFrom slot)[k]? = w.get? (slot + k) := by
  unfold entriesFrom get?
  rw [if_neg (by omega), if_neg (by omega), Array.getElem?_toList, Array.getElem?_extract]
  split
  · congr 1
    omega
  · exact (Array.getElem?_eq_none (by omega)).symm

/-- A range lists slots in ascending order. -/
theorem sorted_of_range {w : Window α} {first last : Nat} {held : List (Nat × α)}
    (h : w.range first last = .ok held) : (held.map Prod.fst).Pairwise (· < ·) := by
  obtain ⟨stop, -, hret⟩ := Checked.bind_eq_ok_iff.mp h
  obtain rfl := Except.ok.inj hret
  rw [List.pairwise_map]
  refine List.Pairwise.filterMap _ ?_ List.pairwise_lt_range'
  intro s t hlt a ha b hb
  obtain ⟨_, -, rfl⟩ := Option.map_eq_some_iff.mp ha
  obtain ⟨_, -, rfl⟩ := Option.map_eq_some_iff.mp hb
  exact hlt

/-- A range lists exactly the slots between its ends that are held, with their records. -/
theorem mem_of_range {w : Window α} {first last : Nat} {held : List (Nat × α)}
    (h : w.range first last = .ok held) {slot : Nat} {entry : α} :
    (slot, entry) ∈ held ↔ first ≤ slot ∧ slot ≤ last ∧ w.get? slot = some entry := by
  unfold range at h
  by_cases hfit : w.low + w.entries.size < Word.size
  · rw [Word.fit_eq_ok_iff.mpr ⟨hfit, rfl⟩] at h
    simp only [bind, Except.bind, pure, Except.pure, Except.ok.injEq] at h
    subst h
    rw [List.mem_filterMap]
    constructor
    · rintro ⟨t, ht, hmap⟩
      rw [List.mem_range'_1] at ht
      rw [Option.map_eq_some_iff] at hmap
      obtain ⟨e, he, hpair⟩ := hmap
      rw [Prod.mk.injEq] at hpair
      obtain ⟨rfl, rfl⟩ := hpair
      exact ⟨by omega, by omega, he⟩
    · rintro ⟨hfirst, hlast, hget⟩
      have hheld := isSome_get?_iff.mp (Option.isSome_of_mem hget)
      unfold length at hheld
      refine ⟨slot, ?_, by rw [hget]; rfl⟩
      rw [List.mem_range'_1]
      omega
  · rw [Word.fit, if_neg hfit] at h
    cases h

/-- Ranges that follow each other list slots in ascending order, one range after the other. -/
theorem sorted_of_mapM_range {w : Window α} {ranges : List (Nat × Nat)}
    {held : List (List (Nat × α))}
    (h : ranges.mapM (fun (first, last) => w.range first last) = .ok held)
    (hranges : ranges.Pairwise fun a b => a.2 < b.1) :
    (held.flatten.map Prod.fst).Pairwise (· < ·) := by
  induction ranges generalizing held with
  | nil =>
    obtain rfl := Except.ok.inj h
    exact List.Pairwise.nil
  | cons range ranges ih =>
    rw [List.mapM_cons] at h
    obtain ⟨first, hfirst, hrest⟩ := Checked.bind_eq_ok_iff.mp h
    obtain ⟨rest, hmapM, hret⟩ := Checked.bind_eq_ok_iff.mp hrest
    obtain rfl := Except.ok.inj hret
    obtain ⟨hbefore, hranges⟩ := List.pairwise_cons.mp hranges
    rw [List.flatten_cons, List.map_append, List.pairwise_append]
    refine ⟨sorted_of_range hfirst, ih hmapM hranges, fun s hs t ht => ?_⟩
    obtain ⟨⟨s, entry⟩, hin, rfl⟩ := List.mem_map.mp hs
    obtain ⟨⟨t, entry'⟩, hin', rfl⟩ := List.mem_map.mp ht
    obtain ⟨part, hpart, hin'⟩ := List.mem_flatten.mp hin'
    obtain ⟨later, hlater, hrange⟩ := Checked.exists_of_mem_mapM hmapM hpart
    have hle := ((mem_of_range hfirst).mp hin).2.1
    have hge := ((mem_of_range hrange).mp hin').1
    have hlt := hbefore later hlater
    dsimp only
    omega

end Window

end ReplicatedLog
