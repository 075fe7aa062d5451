import ReplicatedLog.Proofs.Leading
import Mathlib.Data.List.Nodup
import Mathlib.Algebra.Order.Group.Multiset
import Mathlib.Tactic.Abel

/-!
# Values of its own

A value that a client submitted to a proposer waits in its queue, or has a slot above the decided
ones where it is marked as the proposer's own. These are its stock (`Proposer.stock`), counted with
multiplicity.

* Filling the pipeline moves values from the queue to slots (`stock_of_fill`).
* Beginning to propose moves the values that reported votes displaced from their slots to the queue;
  those that the reports repeat are marked as own again (`stock_begun`).
* Hearing of deliveries moves the values that lost their slots to the queue, and those that were
  delivered in their slots leave the stock (`stock_advanced`).

No other step changes it, but for a value that is submitted (`stock_of_act`).
-/

namespace ReplicatedLog

/-! ### Selecting from a list -/

section Select

variable {α β : Type} {l : List α} {f g h : α → Option β}

/-- What one function selects, two others share. -/
theorem coe_filterMap_add (hsplit : ∀ a ∈ l, f a = g a ∧ h a = none ∨ f a = h a ∧ g a = none) :
    (l.filterMap f : Multiset β) = l.filterMap g + l.filterMap h := by
  induction l with
  | nil => rfl
  | cons a l ih =>
    have hl := ih fun b hb => hsplit b (List.mem_cons_of_mem a hb)
    rcases hsplit a List.mem_cons_self with ⟨hf, hnone⟩ | ⟨hf, hnone⟩
    · rw [List.filterMap_cons_none hnone]
      cases hg : g a with
      | none => rw [List.filterMap_cons_none (hf.trans hg), List.filterMap_cons_none hg, hl]
      | some b =>
        rw [List.filterMap_cons_some (hf.trans hg), List.filterMap_cons_some hg,
          ← Multiset.cons_coe, ← Multiset.cons_coe, hl, Multiset.cons_add]
    · rw [List.filterMap_cons_none hnone]
      cases hh : h a with
      | none => rw [List.filterMap_cons_none (hf.trans hh), List.filterMap_cons_none hh, hl]
      | some b =>
        rw [List.filterMap_cons_some (hf.trans hh), List.filterMap_cons_some hh,
          ← Multiset.cons_coe, ← Multiset.cons_coe, hl, Multiset.add_cons]

/-- A member that nothing was selected for gets something. -/
theorem coe_filterMap_eq_cons {a : α} {b : β} (hnodup : l.Nodup) (ha : a ∈ l) (hnone : f a = none)
    (hsome : g a = some b) (hothers : ∀ x, x ≠ a → g x = f x) :
    (l.filterMap g : Multiset β) = b ::ₘ (l.filterMap f : Multiset β) := by
  obtain ⟨l₁, l₂, rfl⟩ := List.append_of_mem ha
  obtain ⟨h₁, h₂⟩ : a ∉ l₁ ∧ a ∉ l₂ := by
    rw [List.nodup_append] at hnodup
    obtain ⟨-, hcons, hdisjoint⟩ := hnodup
    exact ⟨fun hmem => hdisjoint a hmem a List.mem_cons_self rfl, (List.nodup_cons.mp hcons).1⟩
  have hsame : ∀ l' : List α, a ∉ l' → l'.filterMap g = l'.filterMap f := fun l' hl' =>
    List.filterMap_congr fun x hx => hothers x fun heq => hl' (heq ▸ hx)
  rw [List.filterMap_append, List.filterMap_append, List.filterMap_cons_some hsome,
    List.filterMap_cons_none hnone, hsame l₁ h₁, hsame l₂ h₂, ← Multiset.coe_add,
    ← Multiset.cons_coe, Multiset.add_cons, Multiset.coe_add]

/-- A longer range of slots adds nothing, if nothing is selected for the slots that it adds. -/
theorem filterMap_range'_eq {f : Nat → Option β} {first m n : Nat} (hle : m ≤ n)
    (hnone : ∀ t, first + m ≤ t → f t = none) :
    (List.range' first m).filterMap f = (List.range' first n).filterMap f := by
  obtain ⟨k, rfl⟩ := Nat.exists_eq_add_of_le hle
  rw [← List.range'_append_1, List.filterMap_append, List.self_eq_append_right,
    List.filterMap_eq_nil_iff]
  intro t ht
  rw [List.mem_range'_1] at ht
  exact hnone t ht.1

end Select

namespace Proposer

variable {p p' : Proposer} {w : Window Proposal} {out : List Outgoing}

/-- The values of its own, for the slots above the decided ones in ascending order. -/
def owned (p : Proposer) : List Value :=
  (List.range' (p.adu + 1) (p.window.highest - p.adu)).filterMap p.ownAt

/-- What the proposer holds of the values that clients submitted: those in its queue and those of its
own that have slots. -/
def stock (p : Proposer) : Multiset Value := p.queue + p.owned

theorem valueIn_of_ownIn {t : Nat} {v : Value} (h : ownIn w t = some v) :
    valueIn w t = some v := by
  obtain ⟨e, he, hv⟩ := Option.bind_eq_some_iff.mp h
  unfold Proposal.own? at hv
  split at hv
  · exact Option.bind_eq_some_iff.mpr ⟨e, he, hv⟩
  · cases hv

theorem ownIn_eq_none {t : Nat} (h : t < w.low ∨ w.highest < t) : ownIn w t = none := by
  have hget : w.get? t = none := by
    rw [Window.get?_eq_none_iff]
    unfold Window.highest Window.length at *
    omega
  rw [ownIn, hget]
  rfl

/-- Slots that are not held hold nothing of its own. -/
theorem owned_eq {n : Nat} (h : p.window.highest ≤ p.adu + n) :
    p.owned = (List.range' (p.adu + 1) n).filterMap p.ownAt :=
  filterMap_range'_eq (by omega) fun _ ht => ownIn_eq_none (Or.inr (by omega))

/-- What is its own depends on nothing else. -/
theorem stock_congr (hqueue : p'.queue = p.queue) (hadu : p'.adu = p.adu)
    (hown : ∀ t, p'.ownAt t = p.ownAt t) : p'.stock = p.stock := by
  have hn := Nat.le_max_left p.window.highest p'.window.highest
  have hn' := Nat.le_max_right p.window.highest p'.window.highest
  rw [stock, stock, hqueue, owned_eq (n := max p.window.highest p'.window.highest) (by omega),
    owned_eq (p := p) (n := max p.window.highest p'.window.highest) (by omega), hadu, funext hown]

/-! ### Filling the pipeline -/

/-- Every value that leaves the queue gets a slot that had none. -/
theorem stock_fillFrom {slots : List Nat} (hnodup : slots.Nodup) (room slot : Nat)
    (w : Window Proposal) (queue : List Value)
    (hslots : ∀ t, slot ≤ t → t < slot + room → t ∈ slots) :
    let f := fillFrom room slot w queue
    (f.queue + slots.filterMap (ownIn f.window) : Multiset Value) =
      queue + slots.filterMap (ownIn w) := by
  fun_induction fillFrom room slot w queue with
  | case1 => rfl
  | case2 room slot w window queue _ => simp only [window, funext (ownIn_touch w slot)]
  | case3 room slot w window value takenFrom own resends queue hget window' rest ih =>
    have hsame : ownIn window' = ownIn w := funext fun t =>
      (ownIn_modify_of_own_eq (by exact fun _ => rfl) t).trans (ownIn_touch w slot t)
    rw [← hsame]
    exact ih fun t hle hlt => hslots t (by omega) (by omega)
  | case4 room slot w window takenFrom own resends value queue hget window' rest ih =>
    have hlow : window.low ≤ slot := Window.low_le_of_get? hget
    have hnone : ownIn w slot = none := by
      rw [← ownIn_touch w slot slot, ownIn, hget]
      cases own <;> rfl
    have hsome : ownIn window' slot = some value := by
      rw [ownIn_modify, if_pos ⟨rfl, hlow⟩]
      rfl
    have hothers : ∀ t, t ≠ slot → ownIn window' t = ownIn w t := by
      intro t ht
      rw [ownIn_modify, if_neg (fun hc => ht hc.1), ownIn_touch]
    have hmoved := coe_filterMap_eq_cons hnodup (hslots slot (Nat.le_refl _) (by omega)) hnone hsome
      hothers
    refine (ih fun t hle hlt => hslots t (by omega) (by omega)).trans ?_
    rw [hmoved, ← Multiset.cons_coe value queue, Multiset.cons_add, Multiset.add_cons]
  | case5 room slot w window takenFrom own resends _ =>
    simp only [window, funext (ownIn_touch w slot)]

theorem stock_of_fill (hadu : p.adu < p.nextSlot) (h : p.fill = .ok (p', out)) :
    p'.stock = p.stock := by
  rcases fill_cases h with ⟨-, rfl, -⟩ | ⟨-, -, room, f, rfl, -, rfl, -⟩
  · rfl
  · set f := fillFrom room p.nextSlot p.window p.queue with hf
    set n := max (p.nextSlot + room) (max p.window.highest f.window.highest)
    have hfilled := stock_fillFrom (List.nodup_range' (s := p.adu + 1) (n := n)) room p.nextSlot
      p.window p.queue (fun t hle hlt => by rw [List.mem_range'_1]; omega)
    rw [stock, stock, owned_eq (p := p) (n := n) (by omega),
      owned_eq (p := { p with window := f.window, queue := f.queue, nextSlot := _ }) (n := n)
        (by dsimp only; omega)]
    exact hfilled

/-! ### Beginning to propose -/

/-- The own values are listed slot by slot. -/
theorem eq_of_ownValues {ownBefore : List (Nat × Value)} (hlow : p.window.low = p.adu + 1)
    (h : p.ownValues = .ok ownBefore) :
    ownBefore = (List.range' (p.adu + 1) (p.window.highest - p.adu)).filterMap
      fun t => (p.ownAt t).map fun v => (t, v) := by
  obtain ⟨first, hfirst, hrest⟩ := Checked.bind_eq_ok_iff.mp h
  obtain ⟨held, hheld, hret⟩ := Checked.bind_eq_ok_iff.mp hrest
  obtain ⟨stop, hstop, hrange⟩ := Checked.bind_eq_ok_iff.mp hheld
  obtain ⟨-, rfl⟩ := Word.fit_eq_ok_iff.mp hfirst
  obtain ⟨-, rfl⟩ := Word.fit_eq_ok_iff.mp hstop
  obtain rfl := Except.ok.inj hret
  obtain rfl := Except.ok.inj hrange
  rw [List.filterMap_filterMap]
  have hcount : min p.window.highest (p.window.low + p.window.entries.size - 1) + 1 -
      max (p.adu + 1) p.window.low = p.window.highest - p.adu := by
    unfold Window.highest
    omega
  have hstart : max (p.adu + 1) p.window.low = p.adu + 1 := by omega
  rw [hcount, hstart]
  refine List.filterMap_congr fun t _ => ?_
  rw [ownAt, ownIn]
  cases p.window.get? t with
  | none => rfl
  | some e =>
    simp only [Option.map_some, Option.bind_some, Proposal.own?]
    split <;> rfl

theorem mem_ownValues_iff {ownBefore : List (Nat × Value)} (hlow : p.window.low = p.adu + 1)
    (h : p.ownValues = .ok ownBefore) {t : Nat} {v : Value} :
    (t, v) ∈ ownBefore ↔ p.ownAt t = some v := by
  rw [eq_of_ownValues hlow h, List.mem_filterMap]
  constructor
  · rintro ⟨t', -, hmap⟩
    obtain ⟨v', hv', heq⟩ := Option.map_eq_some_iff.mp hmap
    cases heq
    exact hv'
  · intro hv
    refine ⟨t, ?_, by rw [hv]; rfl⟩
    have hheld : ¬ (t < p.window.low ∨ p.window.highest < t) := fun hc => by
      rw [ownAt, ownIn_eq_none hc] at hv
      cases hv
    rw [List.mem_range'_1]
    omega

/-- Where a reported vote took over, nothing is its own; elsewhere nothing changed. -/
theorem ownIn_seeded (p : Proposer) (t : Nat) :
    ownIn p.seeded t = none ∨
      ownIn p.seeded t = p.ownAt t ∧ valueIn p.seeded t = p.valueAt t := by
  unfold seeded
  refine List.foldlRecOn (motive := fun w => ownIn w t = none ∨
    ownIn w t = p.ownAt t ∧ valueIn w t = p.valueAt t) _ _ (Or.inr ⟨rfl, rfl⟩) ?_
  intro w hw r _
  unfold seed
  split
  · exact hw
  rw [ownIn_modify, valueIn_modify]
  split
  · split
    · exact Or.inl rfl
    · rwa [own?_getD, value_getD]
  · exact hw

/-- What kept its slot is its own again, and nothing else becomes its own. -/
theorem ownIn_restore (w : Window Proposal) (ownBefore : List (Nat × Value)) {t : Nat}
    (ht : w.low ≤ t) :
    ownIn (restore w ownBefore) t =
      if (valueIn w t).any (fun v => (t, v) ∈ ownBefore) then valueIn w t else ownIn w t := by
  induction ownBefore generalizing w with
  | nil => simp [restore]
  | cons own ownBefore ih =>
    obtain ⟨slot, value⟩ := own
    have hvalue : ∀ t, valueIn (w.modify slot fun e =>
        if e.value == some value then { e with own := true } else e) t = valueIn w t :=
      valueIn_modify_of_value_eq fun e => by split <;> rfl
    have hcons : restore w ((slot, value) :: ownBefore) = restore (w.modify slot fun e =>
      if e.value == some value then { e with own := true } else e) ownBefore := rfl
    rw [hcons, ih _ (by rwa [Window.low_modify]), hvalue, ownIn_modify]
    by_cases hslot : t = slot
    · subst hslot
      have hhere : t = t ∧ w.low ≤ t := ⟨rfl, ht⟩
      have hget := value_getD w t
      have hown := own?_getD w t
      generalize (w.get? t).getD default = e at hget hown
      rw [if_pos hhere, ← hget, ← hown]
      cases hv : e.value with
      | none => simp
      | some v =>
        by_cases hsame : v = value
        · simp [hsame, Proposal.own?]
        · simp [hsame]
    · have hthere : ¬ (t = slot ∧ w.low ≤ slot) := fun hc => hslot hc.1
      rw [if_neg hthere]
      simp [hslot]

theorem ownIn_plug (w : Window Proposal) (adu last t : Nat) :
    ownIn (plug w adu last) t = ownIn w t := by
  unfold plug
  refine List.foldlRecOn (motive := fun w' => ownIn w' t = ownIn w t) _ _ rfl ?_
  intro w' hw' slot _
  refine (ownIn_modify_of_own_eq (fun e => ?_) t).trans hw'
  split
  · rename_i hnone
    rw [Option.isNone_iff_eq_none] at hnone
    simp [Proposal.own?, hnone]
  · rfl

theorem holds_iff {t : Nat} {v : Value} : holds w t v = true ↔ valueIn w t = some v := by
  simp [holds, valueIn, Option.any_eq_true, Option.bind_eq_some_iff]

/-- With its promises the proposer has those own values that kept their slots. -/
theorem ownAt_begun {ownBefore : List (Nat × Value)} (hlow : p.window.low = p.adu + 1)
    (h : p.ownValues = .ok ownBefore) {t : Nat} (ht : p.adu < t) :
    (p.begun ownBefore).ownAt t = (p.ownAt t).filter fun v => holds p.seeded t v := by
  have hbegun : (p.begun ownBefore).ownAt t = ownIn (restore p.seeded ownBefore) t :=
    ownIn_plug _ _ _ _
  rw [hbegun, ownIn_restore _ _ (by rw [low_seeded]; omega)]
  simp only [mem_ownValues_iff hlow h]
  have hseeded := ownIn_seeded p t
  cases hown : p.ownAt t with
  | none =>
    have hnone : ownIn p.seeded t = none := hseeded.elim (fun hc => hc) fun hc => hc.1.trans hown
    simpa using hnone
  | some v =>
    have hvalue : p.valueAt t = some v := valueIn_of_ownIn hown
    by_cases hkept : valueIn p.seeded t = some v
    · simp [hkept, Option.filter_some, holds_iff]
    · have hnone : ownIn p.seeded t = none :=
        hseeded.resolve_right fun hc => hkept (hc.2.trans hvalue)
      cases hnow : valueIn p.seeded t with
      | none => simp [Option.filter_some, holds_iff, hnone, hnow]
      | some v' =>
        have hne : v ≠ v' := fun heq => hkept (heq ▸ hnow)
        simp [Option.filter_some, holds_iff, hnone, hnow, hne, hne.symm]

/-- What loses its slot to a reported vote goes back to the queue. -/
theorem stock_begun {ownBefore : List (Nat × Value)} (hlow : p.window.low = p.adu + 1)
    (h : p.ownValues = .ok ownBefore) : (p.begun ownBefore).stock = p.stock := by
  set n := max p.window.highest (p.begun ownBefore).window.highest
  have hdisplaced : p.displaced ownBefore = (List.range' (p.adu + 1) n).filterMap fun t =>
      (p.ownAt t).filter fun v => !holds p.seeded t v := by
    rw [displaced, eq_of_ownValues hlow h, List.filterMap_filterMap]
    have hsame : ∀ t, ((p.ownAt t).map fun v => (t, v)).bind (fun own =>
        if holds p.seeded own.1 own.2 then none else some own.2) =
        (p.ownAt t).filter fun v => !holds p.seeded t v := by
      intro t
      cases p.ownAt t with
      | none => rfl
      | some v => cases hv : holds p.seeded t v <;> simp [hv, Option.filter_some]
    rw [funext hsame]
    refine filterMap_range'_eq (by omega) fun t ht => ?_
    rw [ownAt, ownIn_eq_none (Or.inr (by omega))]
    rfl
  have hkept : (p.begun ownBefore).owned = (List.range' (p.adu + 1) n).filterMap fun t =>
      (p.ownAt t).filter fun v => holds p.seeded t v := by
    rw [owned_eq (p := p.begun ownBefore) (n := n) (by show _ ≤ p.adu + n; omega)]
    refine List.filterMap_congr fun t ht => ?_
    rw [List.mem_range'_1] at ht
    exact ownAt_begun hlow h ht.1
  have hsplit : (p.owned : Multiset Value) =
      (p.begun ownBefore).owned + p.displaced ownBefore := by
    rw [hkept, hdisplaced, owned_eq (n := n) (by omega)]
    refine coe_filterMap_add fun t _ => ?_
    cases p.ownAt t with
    | none => exact Or.inl ⟨rfl, rfl⟩
    | some v => cases hv : holds p.seeded t v <;> simp [hv, Option.filter_some]
  have hqueue : (p.begun ownBefore).queue = p.displaced ownBefore ++ p.queue := rfl
  rw [stock, stock, hsplit, hqueue, ← Multiset.coe_add]
  abel

/-! ### Hearing of deliveries -/

/-- The values of its own that were delivered in their slots. -/
def settledBy (p : Proposer) (decided : List (Nat × Value)) : List Value :=
  decided.filterMap fun (slot, value) => if p.ownAt slot = some value then some value else none

theorem lostTo_eq (p : Proposer) (slot : Nat) (value : Value) :
    p.lostTo slot value = (p.ownAt slot).filter fun mine => mine ≠ value := by
  unfold lostTo ownAt ownIn
  cases p.window.get? slot with
  | none => rfl
  | some e =>
    obtain ⟨_ | mine, takenFrom, own, resends⟩ := e
    · cases own <;> rfl
    · cases own
      · rfl
      · by_cases hmine : mine = value <;> simp [Proposal.own?, Option.filter_some, hmine]

/-- What loses its slot to what was delivered there goes back to the queue, and what was delivered in
its slot is settled, if the deliveries are those of the slots after the decided ones. -/
theorem stock_advanced {adu : Nat} {decided : List (Nat × Value)} (habove : p.adu < adu)
    (hslots : decided.map Prod.fst = List.range' (p.adu + 1) (adu - p.adu)) :
    (p.advanced adu decided).stock + p.settledBy decided = p.stock := by
  set n := max p.window.highest (p.advanced adu decided).window.highest
  have hafter : (p.advanced adu decided).owned = (List.range' (adu + 1) n).filterMap p.ownAt := by
    rw [owned_eq (p := p.advanced adu decided) (n := n) (by show _ ≤ adu + n; omega)]
    refine List.filterMap_congr fun t ht => ?_
    have ht' : adu + 1 ≤ t := (List.mem_range'_1.mp ht).1
    exact (ownIn_raise p.window (adu + 1) t).trans (if_neg (by omega))
  have hbefore : p.owned = decided.filterMap (fun d => p.ownAt d.1) ++
      (p.advanced adu decided).owned := by
    have hdecided : decided.filterMap (fun d => p.ownAt d.1) =
        (List.range' (p.adu + 1) (adu - p.adu)).filterMap p.ownAt := by
      rw [← hslots, List.filterMap_map]
      rfl
    have hstart : adu + 1 = p.adu + 1 + (adu - p.adu) := by omega
    rw [hafter, hdecided, ← List.filterMap_append, hstart, List.range'_append_1]
    exact owned_eq (by omega)
  have hsplit : (decided.filterMap fun d => p.ownAt d.1 : Multiset Value) =
      p.lost adu decided + p.settledBy decided := by
    refine coe_filterMap_add fun d hd => ?_
    have hd' : d.1 ∈ decided.map Prod.fst := List.mem_map_of_mem hd
    rw [hslots, List.mem_range'_1] at hd'
    have hwithin : (decide (p.adu < d.1) && decide (d.1 ≤ adu)) = true := by
      rw [Bool.and_eq_true, decide_eq_true_eq, decide_eq_true_eq]
      omega
    simp only [hwithin, if_true, lostTo_eq]
    cases p.ownAt d.1 with
    | none => exact Or.inl ⟨rfl, by simp⟩
    | some mine => by_cases hmine : mine = d.2 <;> simp [Option.filter_some, hmine]
  have hqueue : (p.advanced adu decided).queue = p.lost adu decided ++ p.queue := rfl
  rw [stock, stock, hbefore, ← Multiset.coe_add, hsplit, hqueue, ← Multiset.coe_add]
  abel

/-! ### Steps -/

/-- **The stock changes** by the values that are submitted only, unless the proposer hears of
deliveries. -/
theorem stock_of_act {x : Input} {o : Output} (hlow : p.window.low = p.adu + 1)
    (hnext : p.adu < p.nextSlot) (hx : ∀ adu decided, x ≠ .noteDelivered adu decided)
    (h : p.act x = .ok (p', o)) : p'.stock = p.stock + o.taken.toList := by
  cases acts_of_act hlow h with
  | quiet same =>
    rw [Option.toList_none, Multiset.coe_nil, add_zero]
    exact stock_congr same.queue_eq same.adu_eq fun t => by rw [ownAt, same.window_eq, ownAt]
  | ask cause asks =>
    rw [Option.toList_none, Multiset.coe_nil, add_zero]
    exact stock_congr asks.queue_eq asks.adu_eq asks.ownAt_eq
  | gather => exact (stock_congr rfl rfl fun _ => rfl).trans (add_zero _).symm
  | fill readies fills =>
    cases readies with
    | @begins m topCounter ownBefore phase_eq round_eq enough own =>
      rw [Option.toList_none, Multiset.coe_nil, add_zero, stock_of_fill (Nat.lt_succ_self p.adu) fills]
      refine (stock_begun ?_ own).trans (stock_congr rfl rfl fun _ => rfl)
      exact hlow
    | submits value =>
      refine (stock_of_fill ?_ fills).trans ?_
      · exact hnext
      · rw [stock, stock, ← Multiset.coe_add]
        exact add_right_comm _ _ _
    | advances adu decided => exact absurd rfl (hx adu decided)
  | resend _ recounted =>
    rw [Option.toList_none, Multiset.coe_nil, add_zero]
    exact stock_congr rfl rfl recounted.ownIn_eq

/-- Hearing of the deliveries of the slots after the decided ones settles some of the stock. -/
theorem stock_of_noteDelivered {adu : Nat} {decided : List (Nat × Value)} (habove : p.adu < adu)
    (hslots : decided.map Prod.fst = List.range' (p.adu + 1) (adu - p.adu))
    (h : p.noteDelivered adu decided = .ok (p', out)) :
    p'.stock + p.settledBy decided = p.stock := by
  rcases noteDelivered_cases h with ⟨hle, -⟩ | ⟨-, -, hfill⟩
  · omega
  · have hnext := (nextSlot_advanced p adu decided).2
    rw [stock_of_fill hnext hfill, stock_advanced habove hslots]

end Proposer

end ReplicatedLog
