import Mathlib.Tactic
import Mathlib.Logic.Function.Basic

/-!
# Tables under concurrent transactions

The rows of a table carry the transaction that wrote them. A ledger follows one
session through its own statements only. `Represents` relates the table to the
ledgers of all sessions, so what a session knows of its own statements tells
which of its rows are committed, whatever the other sessions do.
-/

namespace Async

variable {ι Row κ : Type}

/-- Who still has a row under its control. -/
inductive Tx (ι : Type) where
  | committed
  | of (i : ι)
  /-- The session gave its connection back with the transaction still open. -/
  | detached
  deriving DecidableEq

structure Table (ι Row : Type) where
  rows : List (Tx ι × Row)
  inTransaction : ι → Bool

/-- What a statement of one session does to the rows it controls. -/
inductive Action (Row : Type) where
  | begin
  | insert (row : Row)
  | commit
  | discard
  | release

namespace Table

def empty : Table ι Row := ⟨[], fun _ => false⟩

def committed (t : Table ι Row) : List Row :=
  t.rows.filterMap fun x => match x.1 with
    | .committed => some x.2
    | _ => none

theorem mem_committed {t : Table ι Row} {r : Row} :
    r ∈ t.committed ↔ (.committed, r) ∈ t.rows := by
  unfold committed
  rw [List.mem_filterMap]
  constructor
  · rintro ⟨⟨tx, r'⟩, hmem, heq⟩
    cases tx <;> simp_all
  · exact fun h => ⟨_, h, rfl⟩

/-- The contents, whoever holds them. -/
def contents (t : Table ι Row) : List Row := t.rows.map Prod.snd

theorem mem_contents_of_committed {t : Table ι Row} {r : Row} (h : r ∈ t.committed) :
    r ∈ t.contents :=
  List.mem_map.mpr ⟨_, mem_committed.mp h, rfl⟩

theorem committed_sublist (t : Table ι Row) : t.committed.Sublist t.contents := by
  unfold committed contents
  induction t.rows with
  | nil => exact List.Sublist.slnil
  | cons x rows ih =>
    obtain ⟨tx, r⟩ := x
    cases tx with
    | committed => exact ih.cons_cons r
    | of i => exact ih.cons r
    | detached => exact ih.cons r

/-- Two rows with one key are one row. -/
theorem eq_of_key {β : Type} {key : Row → β} {t : Table ι Row} {r r' : Row}
    (h : (t.contents.map key).Nodup) (hr : r ∈ t.contents) (hr' : r' ∈ t.contents)
    (heq : key r = key r') : r = r' :=
  List.inj_on_of_nodup_map h hr hr' heq

variable [DecidableEq ι]

/-- Passes the rows of one session on to a new holder. -/
def hand (i : ι) (tx : Tx ι) (rows : List (Tx ι × Row)) : List (Tx ι × Row) :=
  rows.map fun x => if x.1 = .of i then (tx, x.2) else x

def dropOf (i : ι) (rows : List (Tx ι × Row)) : List (Tx ι × Row) :=
  rows.filter fun x => decide (x.1 ≠ .of i)

theorem mem_map_ite {α : Type} {p : α → Prop} [DecidablePred p] {f : α → α} {l : List α} {b : α} :
    b ∈ l.map (fun a => if p a then f a else a) ↔ (b ∈ l ∧ ¬ p b) ∨ ∃ a ∈ l, p a ∧ f a = b := by
  rw [List.mem_map]
  constructor
  · rintro ⟨a, ha, heq⟩
    split_ifs at heq with hp
    · exact Or.inr ⟨a, ha, hp, heq⟩
    · subst heq
      exact Or.inl ⟨ha, hp⟩
  · rintro (⟨hb, hp⟩ | ⟨a, ha, hp, heq⟩)
    · exact ⟨b, hb, if_neg hp⟩
    · exact ⟨a, ha, (if_pos hp).trans heq⟩

theorem mem_hand {i : ι} {tx tx' : Tx ι} {rows : List (Tx ι × Row)} {r : Row} :
    (tx', r) ∈ hand i tx rows ↔
      ((tx', r) ∈ rows ∧ tx' ≠ .of i) ∨ (tx' = tx ∧ (.of i, r) ∈ rows) := by
  unfold hand
  rw [mem_map_ite]
  refine or_congr_right ⟨?_, ?_⟩
  · rintro ⟨⟨tx₀, r₀⟩, hmem, rfl, heq⟩
    cases heq
    exact ⟨rfl, hmem⟩
  · rintro ⟨rfl, hmem⟩
    exact ⟨_, hmem, rfl, rfl⟩

theorem mem_dropOf {i : ι} {tx : Tx ι} {rows : List (Tx ι × Row)} {r : Row} :
    (tx, r) ∈ dropOf i rows ↔ (tx, r) ∈ rows ∧ tx ≠ .of i := by
  simp [dropOf, List.mem_filter]

/-- A new `begin` commits what was still open, and an insert outside a transaction
commits by itself. -/
def act (t : Table ι Row) (i : ι) : Action Row → Table ι Row
  | .begin => ⟨hand i .committed t.rows, Function.update t.inTransaction i true⟩
  | .insert row => { t with
      rows := t.rows ++ [(if t.inTransaction i then .of i else .committed, row)] }
  | .commit => ⟨hand i .committed t.rows, Function.update t.inTransaction i false⟩
  | .discard => ⟨dropOf i t.rows, Function.update t.inTransaction i false⟩
  | .release => ⟨hand i .detached t.rows, Function.update t.inTransaction i false⟩

/-- The server ends the transactions left open on a returned connection. -/
def settle (t : Table ι Row) (commits : Bool) (mine : Row → Bool) : Table ι Row :=
  { t with rows :=
      if commits then
        t.rows.map fun x => if x.1 = .detached ∧ mine x.2 then (.committed, x.2) else x
      else t.rows.filter fun x => decide (¬ (x.1 = .detached ∧ mine x.2)) }

/-- Rewrites committed rows in place. -/
def update (t : Table ι Row) (f : Row → Row) : Table ι Row :=
  { t with rows := t.rows.map fun x => if x.1 = .committed then (x.1, f x.2) else x }

theorem mem_settle_commit {t : Table ι Row} {mine : Row → Bool} {tx : Tx ι} {r : Row} :
    (tx, r) ∈ (t.settle true mine).rows ↔
      ((tx, r) ∈ t.rows ∧ ¬ (tx = .detached ∧ mine r)) ∨
        (tx = .committed ∧ (.detached, r) ∈ t.rows ∧ mine r) := by
  simp only [settle, ↓reduceIte]
  rw [mem_map_ite (p := fun x : Tx ι × Row => x.1 = .detached ∧ mine x.2)]
  refine or_congr_right ⟨?_, ?_⟩
  · rintro ⟨⟨tx₀, r₀⟩, hmem, ⟨rfl, hmine⟩, heq⟩
    cases heq
    exact ⟨rfl, hmem, hmine⟩
  · rintro ⟨rfl, hmem, hmine⟩
    exact ⟨_, hmem, ⟨rfl, hmine⟩, rfl⟩

theorem mem_settle_discard {t : Table ι Row} {mine : Row → Bool} {tx : Tx ι} {r : Row} :
    (tx, r) ∈ (t.settle false mine).rows ↔
      (tx, r) ∈ t.rows ∧ ¬ (tx = .detached ∧ mine r) := by
  simp only [settle, Bool.false_eq_true, ↓reduceIte, List.mem_filter, decide_eq_true_eq]

theorem mem_update {t : Table ι Row} {f : Row → Row} {tx : Tx ι} {r : Row} :
    (tx, r) ∈ (t.update f).rows ↔
      ((tx, r) ∈ t.rows ∧ tx ≠ .committed) ∨
        (tx = .committed ∧ ∃ r₀, (.committed, r₀) ∈ t.rows ∧ f r₀ = r) := by
  unfold update
  rw [mem_map_ite]
  refine or_congr_right ⟨?_, ?_⟩
  · rintro ⟨⟨tx₀, r₀⟩, hmem, rfl, heq⟩
    cases heq
    exact ⟨rfl, r₀, hmem, rfl⟩
  · rintro ⟨rfl, r₀, hmem, rfl⟩
    exact ⟨_, hmem, rfl, rfl⟩

theorem map_snd_hand (i : ι) (tx : Tx ι) (rows : List (Tx ι × Row)) :
    (hand i tx rows).map Prod.snd = rows.map Prod.snd := by
  unfold hand
  rw [List.map_map]
  refine List.map_congr_left fun x _ => ?_
  simp only [Function.comp_apply]
  split_ifs <;> rfl

/-- Only an insert adds contents, and it adds its own row. -/
theorem contents_act (t : Table ι Row) (i : ι) (a : Action Row) :
    (t.act i a).contents.Sublist t.contents ∨
      ∃ row, a = .insert row ∧ (t.act i a).contents = t.contents ++ [row] := by
  cases a with
  | begin => exact Or.inl (by rw [contents, act, map_snd_hand]; exact List.Sublist.refl _)
  | insert row => exact Or.inr ⟨row, rfl, by simp [contents, act]⟩
  | commit => exact Or.inl (by rw [contents, act, map_snd_hand]; exact List.Sublist.refl _)
  | discard => exact Or.inl (List.filter_sublist.map _)
  | release => exact Or.inl (by rw [contents, act, map_snd_hand]; exact List.Sublist.refl _)

theorem contents_settle (t : Table ι Row) (commits : Bool) (mine : Row → Bool) :
    (t.settle commits mine).contents.Sublist t.contents := by
  unfold settle contents
  cases commits with
  | true =>
    have hsame : (t.rows.map fun x : Tx ι × Row =>
        if x.1 = .detached ∧ mine x.2 then (Tx.committed, x.2) else x).map Prod.snd =
        t.rows.map Prod.snd := by
      rw [List.map_map]
      refine List.map_congr_left fun x _ => ?_
      simp only [Function.comp_apply]
      split_ifs <;> rfl
    simp only [↓reduceIte, hsame, List.Sublist.refl]
  | false => exact List.filter_sublist.map _

/-- A key that no update touches stays unique as long as inserted keys are fresh. -/
theorem nodup_act {β : Type} {key : Row → β} {t : Table ι Row} {i : ι} {a : Action Row}
    (h : (t.contents.map key).Nodup)
    (hfresh : ∀ row, a = .insert row → key row ∉ t.contents.map key) :
    ((t.act i a).contents.map key).Nodup := by
  rcases contents_act t i a with hsub | ⟨row, ha, hadd⟩
  · exact h.sublist (hsub.map key)
  · rw [hadd, List.map_append]
    exact List.Nodup.append h (List.nodup_singleton _) (by simpa using hfresh row ha)

theorem contents_update {β : Type} (key : Row → β) (t : Table ι Row) {f : Row → Row}
    (hf : ∀ r, key (f r) = key r) : (t.update f).contents.map key = t.contents.map key := by
  unfold update contents
  rw [List.map_map, List.map_map, List.map_map]
  refine List.map_congr_left fun x _ => ?_
  simp only [Function.comp_apply]
  split_ifs
  · exact hf x.2
  · rfl

/-- A committed row stays, whatever the sessions do. -/
theorem committed_act {t : Table ι Row} {i : ι} (a : Action Row) {r : Row}
    (h : r ∈ t.committed) : r ∈ (t.act i a).committed := by
  rw [mem_committed] at h ⊢
  cases a with
  | insert row => exact List.mem_append_left _ h
  | discard => exact mem_dropOf.mpr ⟨h, by simp⟩
  | begin => exact mem_hand.mpr (Or.inl ⟨h, by simp⟩)
  | commit => exact mem_hand.mpr (Or.inl ⟨h, by simp⟩)
  | release => exact mem_hand.mpr (Or.inl ⟨h, by simp⟩)

theorem committed_settle {t : Table ι Row} (commits : Bool) (mine : Row → Bool) {r : Row}
    (h : r ∈ t.committed) : r ∈ (t.settle commits mine).committed := by
  rw [mem_committed] at h ⊢
  cases commits with
  | true => exact List.mem_map.mpr ⟨_, h, if_neg (by simp)⟩
  | false => exact List.mem_filter.mpr ⟨h, by simp⟩

theorem committed_update {t : Table ι Row} (f : Row → Row) :
    (t.update f).committed = t.committed.map f := by
  unfold update committed
  rw [List.filterMap_map, List.map_filterMap]
  refine List.filterMap_congr fun x _ => ?_
  obtain ⟨tx, r⟩ := x
  cases tx <;> rfl

/-- A session without rows of its own moves none by beginning or ending a transaction. -/
theorem rows_act {t : Table ι Row} {i : ι} {a : Action Row} (hnone : ∀ r, (.of i, r) ∉ t.rows)
    (ha : ∀ row, a ≠ .insert row) : (t.act i a).rows = t.rows := by
  have hne : ∀ x ∈ t.rows, x.1 ≠ .of i := by
    rintro ⟨tx, r⟩ hx rfl
    exact hnone r hx
  have hhand : ∀ tx, hand i tx t.rows = t.rows := by
    intro tx
    refine (List.map_congr_left fun x hx => ?_).trans (List.map_id _)
    exact if_neg (hne x hx)
  cases a with
  | insert row => exact absurd rfl (ha row)
  | discard => exact List.filter_eq_self.mpr fun x hx => by simpa using hne x hx
  | begin => exact hhand _
  | commit => exact hhand _
  | release => exact hhand _

end Table

/-- One session's own account of its rows, by key. -/
structure Ledger (κ : Type) where
  isOpen : Bool
  pending : List κ
  committed : List κ
  abandoned : List κ

namespace Ledger

def empty : Ledger κ := ⟨false, [], [], []⟩

def act (l : Ledger κ) : Action κ → Ledger κ
  | .begin => ⟨true, [], l.committed ++ l.pending, l.abandoned⟩
  | .insert x =>
    if l.isOpen then { l with pending := l.pending ++ [x] }
    else { l with committed := l.committed ++ [x] }
  | .commit => ⟨false, [], l.committed ++ l.pending, l.abandoned⟩
  | .discard => ⟨false, [], l.committed, l.abandoned⟩
  | .release => ⟨false, [], l.committed, l.abandoned ++ l.pending⟩

/-- What is committed stays committed. -/
theorem mem_committed_act {l : Ledger κ} {x : κ} (hx : x ∈ l.committed) (a : Action κ) :
    x ∈ (l.act a).committed := by
  cases a with
  | begin => exact List.mem_append_left _ hx
  | insert y =>
    unfold act
    split_ifs
    · exact hx
    · exact List.mem_append_left _ hx
  | commit => exact List.mem_append_left _ hx
  | discard => exact hx
  | release => exact hx

/-- The account of the keys that a function makes of some of the entries. -/
def filterMap {κ' : Type} (f : κ → Option κ') (l : Ledger κ) : Ledger κ' :=
  ⟨l.isOpen, l.pending.filterMap f, l.committed.filterMap f, l.abandoned.filterMap f⟩

end Ledger

def Action.filterMap {κ' : Type} (f : κ → Option κ') : Action κ → Option (Action κ')
  | .begin => some .begin
  | .insert x => (f x).map .insert
  | .commit => some .commit
  | .discard => some .discard
  | .release => some .release

theorem Ledger.filterMap_act {κ' : Type} (f : κ → Option κ') (l : Ledger κ) (a : Action κ) :
    (l.act a).filterMap f = match a.filterMap f with
      | some b => (l.filterMap f).act b
      | none => l.filterMap f := by
  cases a with
  | insert x =>
    unfold act Action.filterMap
    cases hx : f x with
    | none => split_ifs <;> simp [filterMap, hx]
    | some y => cases hopen : l.isOpen <;> simp [filterMap, hopen, hx]
  | _ => simp [act, filterMap, Action.filterMap]

def Action.map (key : Row → κ) : Action Row → Action κ
  | .begin => .begin
  | .insert row => .insert (key row)
  | .commit => .commit
  | .discard => .discard
  | .release => .release

/-- The table is what the ledgers of the sessions say. A dead session has lost the rows
it had not committed. -/
structure Represents (key : Row → κ) (dead : ι → Bool) (t : Table ι Row)
    (l : ι → Ledger κ) : Prop where
  open_iff : ∀ i, dead i = false → t.inTransaction i = (l i).isOpen
  pending_stored : ∀ i, dead i = false → ∀ x ∈ (l i).pending, ∃ r, (.of i, r) ∈ t.rows ∧ key r = x
  committed_stored : ∀ i, ∀ x ∈ (l i).committed, ∃ r, (.committed, r) ∈ t.rows ∧ key r = x
  of_pending : ∀ i r, (.of i, r) ∈ t.rows → dead i = false ∧ key r ∈ (l i).pending
  committed_source : ∀ r, (.committed, r) ∈ t.rows →
    ∃ i, key r ∈ (l i).committed ∨ key r ∈ (l i).abandoned
  detached_source : ∀ r, (.detached, r) ∈ t.rows → ∃ i, key r ∈ (l i).abandoned

namespace Represents

variable {key : Row → κ} {dead : ι → Bool} {t : Table ι Row} {l : ι → Ledger κ}

theorem initial : Represents key dead (Table.empty : Table ι Row) fun _ => Ledger.empty where
  open_iff _ _ := rfl
  pending_stored _ _ _ hx := by cases hx
  committed_stored _ _ hx := by cases hx
  of_pending _ _ hr := by cases hr
  committed_source _ hr := by cases hr
  detached_source _ hr := by cases hr

variable [DecidableEq ι]

/-- What some session has stays with some session if the one that moves keeps it. -/
theorem exists_update (p : Ledger κ → Prop) {i : ι} {l' : Ledger κ} (h : ∃ j, p (l j))
    (hi : p (l i) → p l') : ∃ j, p (Function.update l i l' j) := by
  obtain ⟨j, hj⟩ := h
  refine ⟨j, ?_⟩
  by_cases hij : j = i
  · subst hij
    rw [Function.update_self]
    exact hi hj
  · rw [Function.update_of_ne hij]
    exact hj

/-- Handing the pending rows of a session over, to the committed or the abandoned ones. -/
theorem handOver (h : Represents key dead t l) {i : ι} (hi : dead i = false) {tx : Tx ι}
    {l' : Ledger κ} {open' : Bool} (hopen : l'.isOpen = open') (hpending : l'.pending = [])
    (htx : tx = .committed ∧ l'.committed = (l i).committed ++ (l i).pending ∧
        l'.abandoned = (l i).abandoned ∨
      tx = .detached ∧ l'.committed = (l i).committed ∧
        l'.abandoned = (l i).abandoned ++ (l i).pending) :
    Represents key dead ⟨Table.hand i tx t.rows, Function.update t.inTransaction i open'⟩
      (Function.update l i l') where
  open_iff j hj := by
    by_cases hij : j = i
    · subst j; simp [hopen]
    · simpa [hij] using h.open_iff j hj
  pending_stored j hj x hx := by
    by_cases hij : j = i
    · subst j; simp [hpending] at hx
    · obtain ⟨r, hr, hkey⟩ := h.pending_stored j hj x (by simpa [hij] using hx)
      exact ⟨r, Table.mem_hand.mpr (Or.inl ⟨hr, by simpa using hij⟩), hkey⟩
  committed_stored j x hx := by
    have hcases : x ∈ (l j).committed ∨ (tx = .committed ∧ j = i ∧ x ∈ (l i).pending) := by
      by_cases hij : j = i
      · subst j
        rcases htx with ⟨rfl, hc, -⟩ | ⟨-, hc, -⟩
        · simpa [hc] using hx
        · exact Or.inl (by simpa [hc] using hx)
      · exact Or.inl (by simpa [hij] using hx)
    rcases hcases with hx | ⟨rfl, rfl, hx⟩
    · obtain ⟨r, hr, hkey⟩ := h.committed_stored j x hx
      exact ⟨r, Table.mem_hand.mpr (Or.inl ⟨hr, by simp⟩), hkey⟩
    · obtain ⟨r, hr, hkey⟩ := h.pending_stored _ hi x hx
      exact ⟨r, Table.mem_hand.mpr (Or.inr ⟨rfl, hr⟩), hkey⟩
  of_pending j r hr := by
    rcases Table.mem_hand.mp hr with ⟨hr, hne⟩ | ⟨heq, -⟩
    · have hij : j ≠ i := fun hji => hne (by rw [hji])
      simpa [hij] using h.of_pending j r hr
    · rcases htx with ⟨rfl, -⟩ | ⟨rfl, -⟩ <;> cases heq
  committed_source r hr := by
    rcases Table.mem_hand.mp hr with ⟨hr, -⟩ | ⟨heq, hr⟩
    · refine exists_update (fun m => key r ∈ m.committed ∨ key r ∈ m.abandoned)
        (h.committed_source r hr) fun hold => ?_
      rcases htx with ⟨-, hc, ha⟩ | ⟨-, hc, ha⟩ <;> rw [hc, ha]
      · exact hold.imp_left (List.mem_append_left _)
      · exact hold.imp_right (List.mem_append_left _)
    · rcases htx with ⟨-, hc, -⟩ | ⟨rfl, -⟩
      · exact ⟨i, Or.inl (by simp [hc, (h.of_pending i r hr).2])⟩
      · cases heq
  detached_source r hr := by
    rcases Table.mem_hand.mp hr with ⟨hr, -⟩ | ⟨heq, hr⟩
    · refine exists_update (fun m => key r ∈ m.abandoned) (h.detached_source r hr) ?_
      intro hold
      rcases htx with ⟨-, -, ha⟩ | ⟨-, -, ha⟩ <;> rw [ha]
      · exact hold
      · exact List.mem_append_left _ hold
    · rcases htx with ⟨rfl, -⟩ | ⟨-, -, ha⟩
      · cases heq
      · exact ⟨i, by simp [ha, (h.of_pending i r hr).2]⟩

/-- Losing the pending rows of a session. -/
theorem drop (h : Represents key dead t l) {i : ι} {l' : Ledger κ}
    {dead' : ι → Bool} (hdead : ∀ j, j ≠ i → dead' j = dead j)
    (hclosed : dead' i = false → l'.isOpen = false ∧ l'.pending = [])
    (hcommitted : l'.committed = (l i).committed) (habandoned : l'.abandoned = (l i).abandoned) :
    Represents key dead' ⟨Table.dropOf i t.rows, Function.update t.inTransaction i false⟩
      (Function.update l i l') where
  open_iff j hj := by
    by_cases hij : j = i
    · subst j; simp [(hclosed hj).1]
    · simpa [hij] using h.open_iff j (by rwa [← hdead j hij])
  pending_stored j hj x hx := by
    by_cases hij : j = i
    · subst j; simp [(hclosed hj).2] at hx
    · obtain ⟨r, hr, hkey⟩ := h.pending_stored j (by rwa [← hdead j hij]) x
        (by simpa [hij] using hx)
      exact ⟨r, Table.mem_dropOf.mpr ⟨hr, by simpa using hij⟩, hkey⟩
  committed_stored j x hx := by
    have hx : x ∈ (l j).committed := by
      by_cases hij : j = i
      · subst j; simpa [hcommitted] using hx
      · simpa [hij] using hx
    obtain ⟨r, hr, hkey⟩ := h.committed_stored j x hx
    exact ⟨r, Table.mem_dropOf.mpr ⟨hr, by simp⟩, hkey⟩
  of_pending j r hr := by
    obtain ⟨hr, hne⟩ := Table.mem_dropOf.mp hr
    have hij : j ≠ i := fun hji => hne (by rw [hji])
    simpa [hij, hdead j hij] using h.of_pending j r hr
  committed_source r hr := by
    refine exists_update (fun m => key r ∈ m.committed ∨ key r ∈ m.abandoned)
      (h.committed_source r (Table.mem_dropOf.mp hr).1) fun hold => ?_
    rwa [hcommitted, habandoned]
  detached_source r hr := by
    refine exists_update (fun m => key r ∈ m.abandoned)
      (h.detached_source r (Table.mem_dropOf.mp hr).1) fun hold => ?_
    rwa [habandoned]

/-- Adding a row to the pending or the committed ones of a session. -/
theorem add (h : Represents key dead t l) {i : ι} (hi : dead i = false) {tx : Tx ι} {row : Row}
    {l' : Ledger κ} (hopen : l'.isOpen = (l i).isOpen)
    (habandoned : l'.abandoned = (l i).abandoned)
    (htx : tx = .of i ∧ l'.pending = (l i).pending ++ [key row] ∧
        l'.committed = (l i).committed ∨
      tx = .committed ∧ l'.pending = (l i).pending ∧
        l'.committed = (l i).committed ++ [key row]) :
    Represents key dead { t with rows := t.rows ++ [(tx, row)] } (Function.update l i l') where
  open_iff j hj := by
    by_cases hij : j = i
    · subst j; simpa [hopen] using h.open_iff i hi
    · simpa [hij] using h.open_iff j hj
  pending_stored j hj x hx := by
    have hx : x ∈ (l j).pending ∨ (tx = .of i ∧ j = i ∧ x = key row) := by
      by_cases hij : j = i
      · subst j
        rcases htx with ⟨rfl, hp, -⟩ | ⟨-, hp, -⟩
        · simpa [hp] using hx
        · exact Or.inl (by simpa [hp] using hx)
      · exact Or.inl (by simpa [hij] using hx)
    rcases hx with hx | ⟨rfl, rfl, rfl⟩
    · obtain ⟨r, hr, hkey⟩ := h.pending_stored j hj x hx
      exact ⟨r, List.mem_append_left _ hr, hkey⟩
    · exact ⟨row, by simp, rfl⟩
  committed_stored j x hx := by
    have hx : x ∈ (l j).committed ∨ (tx = .committed ∧ x = key row) := by
      by_cases hij : j = i
      · subst j
        rcases htx with ⟨-, -, hc⟩ | ⟨rfl, -, hc⟩
        · exact Or.inl (by simpa [hc] using hx)
        · simpa [hc] using hx
      · exact Or.inl (by simpa [hij] using hx)
    rcases hx with hx | ⟨rfl, rfl⟩
    · obtain ⟨r, hr, hkey⟩ := h.committed_stored j x hx
      exact ⟨r, List.mem_append_left _ hr, hkey⟩
    · exact ⟨row, by simp, rfl⟩
  of_pending j r hr := by
    rcases List.mem_append.mp hr with hr | hr
    · obtain ⟨hj, hmem⟩ := h.of_pending j r hr
      refine ⟨hj, ?_⟩
      by_cases hij : j = i
      · subst j
        rcases htx with ⟨-, hp, -⟩ | ⟨-, hp, -⟩ <;> simp [hp, hmem]
      · simpa [hij] using hmem
    · obtain ⟨rfl, rfl⟩ : tx = .of j ∧ r = row := by simpa [eq_comm] using hr
      rcases htx with ⟨heq, hp, -⟩ | ⟨heq, -⟩
      · cases heq
        exact ⟨hi, by simp [hp]⟩
      · cases heq
  committed_source r hr := by
    rcases List.mem_append.mp hr with hr | hr
    · refine exists_update (fun m => key r ∈ m.committed ∨ key r ∈ m.abandoned)
        (h.committed_source r hr) fun hold => ?_
      rcases htx with ⟨-, -, hc⟩ | ⟨-, -, hc⟩ <;> rw [hc, habandoned]
      · exact hold
      · exact hold.imp_left (List.mem_append_left _)
    · obtain ⟨rfl, rfl⟩ : tx = .committed ∧ r = row := by simpa [eq_comm] using hr
      rcases htx with ⟨heq, -⟩ | ⟨-, -, hc⟩
      · cases heq
      · exact ⟨i, Or.inl (by simp [hc])⟩
  detached_source r hr := by
    rcases List.mem_append.mp hr with hr | hr
    · refine exists_update (fun m => key r ∈ m.abandoned) (h.detached_source r hr) ?_
      exact fun hold => by rwa [habandoned]
    · have heq : tx = .detached := by
        simpa [eq_comm] using (Prod.mk.inj (List.mem_singleton.mp hr)).1
      rcases htx with ⟨rfl, -⟩ | ⟨rfl, -⟩ <;> cases heq

theorem insert (h : Represents key dead t l) {i : ι} (hi : dead i = false) (row : Row) :
    Represents key dead (t.act i (.insert row))
      (Function.update l i ((l i).act (.insert (key row)))) := by
  have hopen := h.open_iff i hi
  unfold Table.act Ledger.act
  cases ho : (l i).isOpen with
  | true =>
    rw [ho] at hopen
    rw [hopen]
    exact h.add hi ho.symm rfl (Or.inl ⟨rfl, rfl, rfl⟩)
  | false =>
    rw [ho] at hopen
    rw [hopen]
    exact h.add hi ho.symm rfl (Or.inr ⟨rfl, rfl, rfl⟩)

/-- A statement of one session moves the table and its ledger alike. -/
theorem act (h : Represents key dead t l) {i : ι} (hi : dead i = false) (a : Action Row) :
    Represents key dead (t.act i a) (Function.update l i ((l i).act (a.map key))) := by
  cases a with
  | begin => exact h.handOver hi rfl rfl (Or.inl ⟨rfl, rfl, rfl⟩)
  | insert row => exact h.insert hi row
  | commit => exact h.handOver hi rfl rfl (Or.inl ⟨rfl, rfl, rfl⟩)
  | discard => exact h.drop (fun _ _ => rfl) (fun _ => ⟨rfl, rfl⟩) rfl rfl
  | release => exact h.handOver hi rfl rfl (Or.inr ⟨rfl, rfl, rfl⟩)

/-- A session that dies loses what it had not committed. -/
theorem die (h : Represents key dead t l) (i : ι) :
    Represents key (Function.update dead i true) (t.act i .discard) l := by
  have hdrop : Represents key (Function.update dead i true) (t.act i .discard)
      (Function.update l i (l i)) :=
    h.drop (fun j hj => by simp [hj]) (fun hi => by simp at hi) rfl rfl
  rwa [Function.update_eq_self] at hdrop

theorem settle_commit (h : Represents key dead t l) (mine : Row → Bool) :
    Represents key dead (t.settle true mine) l where
  open_iff := h.open_iff
  pending_stored i hi x hx := by
    obtain ⟨r, hr, hkey⟩ := h.pending_stored i hi x hx
    exact ⟨r, Table.mem_settle_commit.mpr (Or.inl ⟨hr, by simp⟩), hkey⟩
  committed_stored i x hx := by
    obtain ⟨r, hr, hkey⟩ := h.committed_stored i x hx
    exact ⟨r, Table.mem_settle_commit.mpr (Or.inl ⟨hr, by simp⟩), hkey⟩
  of_pending i r hr := by
    rcases Table.mem_settle_commit.mp hr with ⟨hr, -⟩ | ⟨heq, -⟩
    · exact h.of_pending i r hr
    · cases heq
  committed_source r hr := by
    rcases Table.mem_settle_commit.mp hr with ⟨hr, -⟩ | ⟨-, hr, -⟩
    · exact h.committed_source r hr
    · obtain ⟨i, hi⟩ := h.detached_source r hr
      exact ⟨i, Or.inr hi⟩
  detached_source r hr := by
    rcases Table.mem_settle_commit.mp hr with ⟨hr, -⟩ | ⟨heq, -⟩
    · exact h.detached_source r hr
    · cases heq

theorem settle_discard (h : Represents key dead t l) (mine : Row → Bool) :
    Represents key dead (t.settle false mine) l where
  open_iff := h.open_iff
  pending_stored i hi x hx := by
    obtain ⟨r, hr, hkey⟩ := h.pending_stored i hi x hx
    exact ⟨r, Table.mem_settle_discard.mpr ⟨hr, by simp⟩, hkey⟩
  committed_stored i x hx := by
    obtain ⟨r, hr, hkey⟩ := h.committed_stored i x hx
    exact ⟨r, Table.mem_settle_discard.mpr ⟨hr, by simp⟩, hkey⟩
  of_pending i r hr := h.of_pending i r (Table.mem_settle_discard.mp hr).1
  committed_source r hr := h.committed_source r (Table.mem_settle_discard.mp hr).1
  detached_source r hr := h.detached_source r (Table.mem_settle_discard.mp hr).1

theorem settle (h : Represents key dead t l) (commits : Bool) (mine : Row → Bool) :
    Represents key dead (t.settle commits mine) l := by
  cases commits with
  | true => exact h.settle_commit mine
  | false => exact h.settle_discard mine

/-- Rewriting committed rows keeps every account when their keys stay. -/
theorem update (h : Represents key dead t l) {f : Row → Row} (hf : ∀ r, key (f r) = key r) :
    Represents key dead (t.update f) l where
  open_iff := h.open_iff
  pending_stored i hi x hx := by
    obtain ⟨r, hr, hkey⟩ := h.pending_stored i hi x hx
    exact ⟨r, Table.mem_update.mpr (Or.inl ⟨hr, by simp⟩), hkey⟩
  committed_stored i x hx := by
    obtain ⟨r, hr, hkey⟩ := h.committed_stored i x hx
    exact ⟨f r, Table.mem_update.mpr (Or.inr ⟨rfl, r, hr, rfl⟩), (hf r).trans hkey⟩
  of_pending i r hr := by
    rcases Table.mem_update.mp hr with ⟨hr, -⟩ | ⟨heq, -⟩
    · exact h.of_pending i r hr
    · cases heq
  committed_source r hr := by
    rcases Table.mem_update.mp hr with ⟨-, hne⟩ | ⟨-, r₀, hr₀, rfl⟩
    · exact absurd rfl hne
    · rw [hf]
      exact h.committed_source r₀ hr₀
  detached_source r hr := by
    rcases Table.mem_update.mp hr with ⟨hr, -⟩ | ⟨heq, -⟩
    · exact h.detached_source r hr
    · cases heq

end Represents

end Async
