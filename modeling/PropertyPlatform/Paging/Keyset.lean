import Mathlib.Data.List.Sort
import Mathlib.Tactic

/-!
# Pages of a list in descending order of a key

A page is selected by an offset, or by a bound on the key. On one list the two agree. A walk
asks for page after page below the last key it was given, and the list may change between the
pages.
-/

namespace Paging

variable {α κ : Type*} [LinearOrder κ] (key : α → κ)

/-- In strictly descending order of the key. -/
def Descending (l : List α) : Prop := l.Pairwise fun x y => key y < key x

/-- `ORDER BY key DESC`. -/
def sortDesc (l : List α) : List α := l.insertionSort fun x y => key y ≤ key x

/-- `WHERE key < bound`. -/
def below (bound : κ) (l : List α) : List α := l.filter fun x => decide (key x < bound)

variable {key} {l l₁ l₂ : List α} {x : α} {bound : κ}

theorem mem_sortDesc : x ∈ sortDesc key l ↔ x ∈ l := List.mem_insertionSort _

theorem mem_below : x ∈ below key bound l ↔ x ∈ l ∧ key x < bound := by
  simp [below, List.mem_filter]

theorem length_sortDesc (key : α → κ) (l : List α) : (sortDesc key l).length = l.length :=
  List.length_insertionSort _ l

theorem descending_sortDesc (h : (l.map key).Nodup) : Descending key (sortDesc key l) := by
  have hsorted : (sortDesc key l).Pairwise fun x y => key y ≤ key x :=
    List.pairwise_insertionSort _ l
  have hnodup : ((sortDesc key l).map key).Nodup :=
    ((List.perm_insertionSort _ l).map key).nodup_iff.mpr h
  have hne : (sortDesc key l).Pairwise fun x y => key x ≠ key y := List.pairwise_map.mp hnodup
  exact (hsorted.and hne).imp fun h => lt_of_le_of_ne h.1 h.2.symm

/-- A descending list is known by its members. -/
theorem Descending.ext (h₁ : Descending key l₁) (h₂ : Descending key l₂)
    (h : ∀ x, x ∈ l₁ ↔ x ∈ l₂) : l₁ = l₂ := by
  have : Std.Irrefl fun x y : α => key y < key x := ⟨fun x => lt_irrefl (key x)⟩
  have : Std.Antisymm fun x y : α => key y < key x := ⟨fun x y h h' => absurd h h'.not_gt⟩
  exact h₁.eq_of_mem_iff h₂ h

/-- In a descending list a key that is there is there once. -/
theorem Descending.count_eq_one {r : κ} (h : Descending key l) (hr : ∃ x ∈ l, key x = r) :
    (l.map key).count r = 1 := by
  have hnodup : (l.map key).Nodup := List.pairwise_map.mpr (h.imp fun hlt => hlt.ne')
  obtain ⟨x, hx, rfl⟩ := hr
  exact List.count_eq_one_of_mem hnodup (List.mem_map_of_mem hx)

theorem sortDesc_filter (h : (l.map key).Nodup) (p : α → Bool) :
    sortDesc key (l.filter p) = (sortDesc key l).filter p := by
  refine Descending.ext (descending_sortDesc ?_) ((descending_sortDesc h).filter p) fun x => ?_
  · exact h.sublist (List.filter_sublist.map key)
  · simp [mem_sortDesc, List.mem_filter]

/-- Below the key of a member lies what follows it. -/
theorem below_append (h : Descending key (l₁ ++ x :: l₂)) :
    below key (key x) (l₁ ++ x :: l₂) = l₂ := by
  obtain ⟨-, hrest, hcross⟩ := List.pairwise_append.mp h
  have hx := List.pairwise_cons.mp hrest
  have hfirst : below key (key x) l₁ = [] := by
    refine List.filter_eq_nil_iff.mpr fun y hy => ?_
    simpa using (hcross y hy x List.mem_cons_self).le
  have hlast : below key (key x) l₂ = l₂ :=
    List.filter_eq_self.mpr fun y hy => by simpa using hx.1 y hy
  have hself : decide (key x < key x) = false := by simp
  rw [below, List.filter_append, List.filter_cons, hself]
  exact (congrArg₂ (· ++ ·) hfirst hlast).trans (List.nil_append _)

/-- The bound after a page selects what the next offset does. -/
theorem below_last (h : Descending key l) {n limit : ℕ}
    (hlast : ((l.drop n).take limit).getLast? = some x) :
    below key (key x) l = l.drop (n + limit) := by
  obtain ⟨page, hpage⟩ := List.getLast?_eq_some_iff.mp hlast
  have hsplit : l = (l.take n ++ page) ++ x :: l.drop (n + limit) := by
    calc l = l.take n ++ ((l.drop n).take limit ++ (l.drop n).drop limit) := by
          rw [List.take_append_drop, List.take_append_drop]
      _ = (l.take n ++ page) ++ x :: l.drop (n + limit) := by
          rw [hpage, List.drop_drop]
          simp
  rw [hsplit] at h
  calc below key (key x) l = below key (key x) ((l.take n ++ page) ++ x :: l.drop (n + limit)) :=
        congrArg _ hsplit
    _ = l.drop (n + limit) := below_append h

/-- The pages one after another. -/
theorem flatMap_pages (limit m : ℕ) (l : List α) :
    ((List.range m).flatMap fun k => (l.drop (k * limit)).take limit) = l.take (m * limit) := by
  induction m with
  | zero => simp
  | succ m ih =>
    rw [List.range_succ, List.flatMap_append, ih, List.flatMap_singleton, Nat.succ_mul,
      List.take_add]

section Walk

variable (key) in
/-- Asks for the next page below the last key until a page is empty. The list at the time of
call `k` is `rows k`; `none` if the calls run out. -/
def walk (rows : ℕ → List α) (limit : ℕ) : ℕ → ℕ → κ → Option (List α)
  | 0, _, _ => none
  | calls + 1, k, bound =>
    let page := (below key bound (rows k)).take limit
    match page.getLast? with
    | none => some []
    | some x => (walk rows limit calls (k + 1) (key x)).map fun rest => page ++ rest

variable {rows : ℕ → List α} {limit calls k : ℕ} {data : List α}

/-- The two ways a walk can go on. -/
theorem walk_cases (h : walk key rows limit (calls + 1) k bound = some data) :
    ((below key bound (rows k)).take limit = [] ∧ data = []) ∨
      ∃ page x rest, (below key bound (rows k)).take limit = page ++ [x] ∧
        walk key rows limit calls (k + 1) (key x) = some rest ∧ data = page ++ [x] ++ rest := by
  simp only [walk] at h
  cases hlast : ((below key bound (rows k)).take limit).getLast? with
  | none =>
    rw [hlast] at h
    cases h
    exact Or.inl ⟨List.getLast?_eq_none_iff.mp hlast, rfl⟩
  | some x =>
    rw [hlast] at h
    obtain ⟨rest, hrest, rfl⟩ := Option.map_eq_some_iff.mp h
    obtain ⟨page, hpage⟩ := List.getLast?_eq_some_iff.mp hlast
    exact Or.inr ⟨page, x, rest, hpage, hrest, by rw [hpage]⟩

theorem walk_descending (hrows : ∀ k, Descending key (rows k))
    (h : walk key rows limit calls k bound = some data) :
    Descending key data ∧ ∀ x ∈ data, key x < bound := by
  induction calls generalizing k bound data with
  | zero => cases h
  | succ calls ih =>
    rcases walk_cases h with ⟨-, rfl⟩ | ⟨page, x, rest, hpage, hrest, rfl⟩
    · exact ⟨.nil, fun x hx => (List.not_mem_nil hx).elim⟩
    · obtain ⟨hdesc, hbelow⟩ := ih hrest
      have hsub : (page ++ [x]).Sublist (below key bound (rows k)) :=
        hpage ▸ List.take_sublist limit _
      have hp : Descending key (page ++ [x]) := ((hrows k).filter _).sublist hsub
      have hbound : ∀ y ∈ page ++ [x], key y < bound := fun y hy => (mem_below.mp (hsub.mem hy)).2
      have hover : ∀ y ∈ page ++ [x], key x ≤ key y := by
        intro y hy
        rcases List.mem_append.mp hy with hy | hy
        · exact ((List.pairwise_append.mp hp).2.2 y hy x (List.mem_singleton_self x)).le
        · rw [List.mem_singleton.mp hy]
      have hx := hbound x (List.mem_append_right _ (List.mem_singleton_self x))
      refine ⟨List.pairwise_append.mpr ⟨hp, hdesc, fun y hy z hz => ?_⟩, fun y hy => ?_⟩
      · exact (hbelow z hz).trans_le (hover y hy)
      · rcases List.mem_append.mp hy with hy | hy
        · exact hbound y hy
        · exact (hbelow y hy).trans hx

/-- A key below the bound that is there at every call is found. -/
theorem walk_complete (hlimit : 0 < limit) (hrows : ∀ k, Descending key (rows k)) {r : κ}
    (hpresent : ∀ j, k ≤ j → j < k + calls → ∃ x ∈ rows j, key x = r) (hr : r < bound)
    (h : walk key rows limit calls k bound = some data) : ∃ x ∈ data, key x = r := by
  induction calls generalizing k bound data with
  | zero => cases h
  | succ calls ih =>
    obtain ⟨y, hy, rfl⟩ := hpresent k le_rfl (by omega)
    have hybelow : y ∈ below key bound (rows k) := mem_below.mpr ⟨hy, hr⟩
    rcases walk_cases h with ⟨hempty, -⟩ | ⟨page, x, rest, hpage, hrest, rfl⟩
    · have hnil : below key bound (rows k) = [] :=
        (List.take_eq_nil_iff.mp hempty).resolve_left hlimit.ne'
      rw [hnil] at hybelow
      cases hybelow
    · rw [← List.take_append_drop limit (below key bound (rows k)), hpage] at hybelow
      have hdesc : Descending key (page ++ [x] ++ (below key bound (rows k)).drop limit) := by
        rw [← hpage, List.take_append_drop]
        exact (hrows k).filter _
      rcases List.mem_append.mp hybelow with hmem | hmem
      · exact ⟨y, List.mem_append_left _ hmem, rfl⟩
      · have hlt : key y < key x := (List.pairwise_append.mp hdesc).2.2 x
          (List.mem_append_right _ (List.mem_singleton_self x)) y hmem
        obtain ⟨z, hz, hkey⟩ := ih (fun j hj hlt => hpresent j (by omega) (by omega)) hlt hrest
        exact ⟨z, List.mem_append_right _ hz, hkey⟩

theorem walk_succ_of_page {page : List α} (hpage : (below key bound (rows k)).take limit = page)
    (hnext : ∀ x, page.getLast? = some x →
      ∃ rest, walk key rows limit calls (k + 1) (key x) = some rest) :
    ∃ data, walk key rows limit (calls + 1) k bound = some data := by
  simp only [walk, hpage]
  cases hlast : page.getLast? with
  | none => exact ⟨[], rfl⟩
  | some x =>
    obtain ⟨rest, hrest⟩ := hnext x hlast
    exact ⟨page ++ rest, by simp [hrest]⟩

/-- Bounds that are natural numbers run out. -/
theorem walk_ends {key : α → ℕ} {bound : ℕ} (h : bound < calls) :
    ∃ data, walk key rows limit calls k bound = some data := by
  induction calls generalizing k bound with
  | zero => exact absurd h (Nat.not_lt_zero _)
  | succ calls ih =>
    refine walk_succ_of_page rfl fun x hlast => ih ?_
    have hx := (mem_below.mp (List.mem_of_mem_take (List.mem_of_getLast? hlast))).2
    omega

/-- When only larger keys come, a walk over `n` rows takes a call for each page and one more. -/
theorem walk_calls (hlimit : 0 < limit) (hrows : ∀ k, Descending key (rows k))
    (hgrow : ∀ k, ∀ x ∈ rows k, (below key (key x) (rows (k + 1))).length =
      (below key (key x) (rows k)).length)
    (hcalls : ((below key bound (rows k)).length + limit - 1) / limit + 1 ≤ calls) :
    ∃ data, walk key rows limit calls k bound = some data := by
  induction calls generalizing k bound with
  | zero => exact absurd hcalls (Nat.not_succ_le_zero _)
  | succ calls ih =>
    refine walk_succ_of_page rfl fun x hlast => ih ?_
    have hxbelow := List.mem_of_mem_take (List.mem_of_getLast? hlast)
    obtain ⟨hx, hxbound⟩ := mem_below.mp hxbelow
    have hsame : below key (key x) (rows k) = below key (key x) (below key bound (rows k)) := by
      rw [below, below, below, List.filter_filter]
      refine List.filter_congr fun y _ => ?_
      by_cases hyx : key y < key x
      · simp [hyx, hyx.trans hxbound]
      · simp [hyx]
    have hdesc : Descending key (below key bound (rows k)) := (hrows k).filter _
    have hrest : below key (key x) (rows k) = (below key bound (rows k)).drop limit := by
      rw [hsame, below_last (n := 0) hdesc (by simpa using hlast), Nat.zero_add]
    rw [hgrow k x hx, hrest, List.length_drop]
    have hpos := List.length_pos_of_mem hxbelow
    set n := (below key bound (rows k)).length
    by_cases hfull : limit ≤ n
    · have hstep : (n + limit - 1) / limit = (n - limit + limit - 1) / limit + 1 := by
        rw [← Nat.add_div_right _ hlimit]
        congr 1
        omega
      omega
    · have hone : 1 ≤ (n + limit - 1) / limit := (Nat.one_le_div_iff hlimit).mpr (by omega)
      have hzero : (n - limit + limit - 1) / limit = 0 := Nat.div_eq_of_lt (by omega)
      omega

end Walk

end Paging
