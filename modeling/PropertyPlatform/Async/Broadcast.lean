import Mathlib.Data.List.Perm.Basic
import Mathlib.Tactic

/-!
# Messages delivered to several listeners

A message is published to whoever listens at that time, and each of these listeners handles it
once, in any order.
-/

namespace Async

open scoped List

variable {ℓ μ κ : Type*}

/-- `sent` keeps the listeners that a message was published to. -/
structure Broadcast (ℓ μ : Type*) where
  sent : List (List ℓ × μ)
  inFlight : List (ℓ × μ)
  handled : List (ℓ × μ)

namespace Broadcast

def empty : Broadcast ℓ μ := ⟨[], [], []⟩

def publish (b : Broadcast ℓ μ) (listeners : List ℓ) (m : μ) : Broadcast ℓ μ :=
  { b with
    sent := b.sent ++ [(listeners, m)]
    inFlight := b.inFlight ++ listeners.map fun l => (l, m) }

/-- The `n`-th delivery on its way reaches its listener. -/
def handle (b : Broadcast ℓ μ) (n : ℕ) : Option ((ℓ × μ) × Broadcast ℓ μ) :=
  b.inFlight[n]?.map fun d =>
    (d, { b with inFlight := b.inFlight.eraseIdx n, handled := b.handled ++ [d] })

/-- What has to be handled sooner or later. -/
def owed (b : Broadcast ℓ μ) : List (ℓ × μ) := b.sent.flatMap fun x => x.1.map fun l => (l, x.2)

/-- No delivery is lost and none is made twice. -/
def Balanced (b : Broadcast ℓ μ) : Prop := b.inFlight ++ b.handled ~ b.owed

variable {b b' : Broadcast ℓ μ} {d : ℓ × μ} {n : ℕ}

theorem handle_eq_some (h : b.handle n = some (d, b')) :
    b'.sent = b.sent ∧ b'.handled = b.handled ++ [d] ∧ d :: b'.inFlight ~ b.inFlight := by
  obtain ⟨d', hd, heq⟩ := Option.map_eq_some_iff.mp h
  obtain ⟨rfl, rfl⟩ := Prod.mk.inj heq
  obtain ⟨hn, rfl⟩ := List.getElem?_eq_some_iff.mp hd
  exact ⟨rfl, rfl, List.getElem_cons_eraseIdx_perm hn⟩

theorem balanced_empty : (empty : Broadcast ℓ μ).Balanced := List.Perm.refl _

theorem Balanced.publish (h : b.Balanced) (listeners : List ℓ) (m : μ) :
    (b.publish listeners m).Balanced := by
  have howed : (b.publish listeners m).owed = b.owed ++ listeners.map fun l => (l, m) := by
    simp [owed, Broadcast.publish]
  unfold Balanced
  rw [howed]
  calc (b.inFlight ++ listeners.map fun l => (l, m)) ++ b.handled
    _ ~ b.inFlight ++ (b.handled ++ listeners.map fun l => (l, m)) := by
        rw [List.append_assoc]
        exact List.perm_append_comm.append_left _
    _ ~ b.owed ++ listeners.map fun l => (l, m) := by
        rw [← List.append_assoc]
        exact h.append_right _

theorem Balanced.handle (h : b.Balanced) (hd : b.handle n = some (d, b')) : b'.Balanced := by
  obtain ⟨hsent, hhandled, hperm⟩ := handle_eq_some hd
  unfold Balanced owed
  rw [hsent, hhandled]
  calc b'.inFlight ++ (b.handled ++ [d])
    _ ~ (d :: b'.inFlight) ++ b.handled := by
        rw [← List.append_assoc]
        exact List.perm_append_singleton d _
    _ ~ b.inFlight ++ b.handled := hperm.append_right _
    _ ~ b.owed := h

section Count

variable [DecidableEq κ] (key : μ → κ)

/-- The deliveries of the messages with one key. -/
theorem Balanced.countP_add (h : b.Balanced) (k : κ) :
    b.inFlight.countP (fun x => key x.2 = k) + b.handled.countP (fun x => key x.2 = k) =
      b.owed.countP fun x => key x.2 = k := by
  rw [← List.countP_append]
  exact h.countP_eq _

theorem countP_map_pair (listeners : List ℓ) (m : μ) (k : κ) :
    (listeners.map fun l => (l, m)).countP (fun x => key x.2 = k) =
      if key m = k then listeners.length else 0 := by
  rw [List.countP_map]
  split_ifs with hk
  · exact List.countP_eq_length.mpr fun _ _ => by simpa using hk
  · exact List.countP_eq_zero.mpr fun _ _ => by simpa using hk

theorem countP_owed_eq_zero {k : κ} (h : ∀ x ∈ b.sent, key x.2 ≠ k) :
    b.owed.countP (fun x => key x.2 = k) = 0 := by
  refine List.countP_eq_zero.mpr fun d hd => ?_
  obtain ⟨x, hx, hdx⟩ := List.mem_flatMap.mp hd
  obtain ⟨l, -, rfl⟩ := List.mem_map.mp hdx
  simpa using h x hx

/-- Where each key is published once, its message is owed to each of its listeners. -/
theorem countP_owed (h : (b.sent.map fun x => key x.2).Nodup) {x : List ℓ × μ}
    (hx : x ∈ b.sent) : b.owed.countP (fun y => key y.2 = key x.2) = x.1.length := by
  obtain ⟨before, after, hsent⟩ := List.append_of_mem hx
  rw [hsent, List.map_append, List.map_cons, List.nodup_middle] at h
  have hnot := (List.nodup_cons.mp h).1
  have hzero : ∀ l : List (List ℓ × μ), (∀ y ∈ l, y ∈ before ++ after) →
      (l.flatMap fun y => y.1.map fun l => (l, y.2)).countP (fun y => key y.2 = key x.2) = 0 := by
    intro l hl
    refine countP_owed_eq_zero (b := ⟨l, [], []⟩) key fun y hy hk => hnot ?_
    rw [← List.map_append, ← hk]
    exact List.mem_map_of_mem (hl y hy)
  unfold owed
  rw [hsent, List.flatMap_append, List.flatMap_cons, List.countP_append, List.countP_append,
    hzero before fun y hy => List.mem_append_left _ hy,
    hzero after fun y hy => List.mem_append_right _ hy, countP_map_pair, if_pos rfl]
  omega

end Count

end Broadcast

end Async
