import PropertyPlatform.Async.Alone
import PropertyPlatform.Cache.Invalidation

/-!
# What an undisturbed invalidation removes

An invalidation that nothing runs beside removes the live keys that match its two patterns
and no others. The pattern of a slug matches more or less than the key of the slug where the
slug begins another one or has a character that patterns give a meaning.
-/

namespace PropertyPlatform.Cache

open Js Async Program

variable {E : Settings} {ι : Type} [DecidableEq ι] {w w' : World ι} {i : ι} {slug : String}

section Keys

/-- Time has passed and content was edited, and nothing else. -/
structure World.Passes (w w' : World ι) : Prop where
  redis : w'.redis = w.redis
  now : w.now ≤ w'.now

omit [DecidableEq ι] in
theorem World.Passes.refl (w : World ι) : w.Passes w := ⟨rfl, le_rfl⟩

omit [DecidableEq ι] in
theorem World.Passes.trans {w₁ w₂ w₃ : World ι} (h : w₁.Passes w₂) (h' : w₂.Passes w₃) :
    w₁.Passes w₃ :=
  ⟨h'.redis.trans h.redis, h.now.trans h'.now⟩

omit [DecidableEq ι] in
theorem passes_drift {w w₁ w' : World ι} (d : Drift) (hd : World.drift d w = some w₁)
    (h : w₁.Passes w') : w.Passes w' := by
  apply World.Passes.trans _ h
  cases d with
  | tick ms =>
    cases hd
    exact ⟨rfl, Nat.le_add_right _ _⟩
  | edit q body =>
    cases hd
    exact ⟨rfl, le_rfl⟩

/-- The same Redis at another time. -/
def World.asOf (w : World ι) (now : ℕ) : World ι := { w with now := now }

omit [DecidableEq ι] in
theorem World.mem_keys {x : Entry} : x ∈ w.keys ↔ x ∈ w.redis ∧ w.now ≤ x.expiresAt := by
  rw [World.keys, List.mem_filter, decide_eq_true_eq]

omit [DecidableEq ι] in
theorem World.isMatch_of_mem_scan {cursor : ℕ} {pattern key : String}
    (h : key ∈ w.scan E cursor pattern) : Redis.isMatch pattern key = true := by
  rw [World.scan, List.mem_filter, Bool.and_eq_true] at h
  exact h.2.2

omit [DecidableEq ι] in
theorem World.keys_asOf {now : ℕ} (h : w.now ≤ now) :
    (w.asOf now).keys = w.keys.filter fun x => decide (now ≤ x.expiresAt) := by
  rw [World.keys, World.keys, World.asOf, List.filter_filter]
  apply List.filter_congr
  intro x _
  by_cases halive : now ≤ x.expiresAt
  · simp [halive, h.trans halive]
  · simp [halive]

omit [DecidableEq ι] in
/-- Live keys that are gone stay away when time passes. -/
theorem World.keys_asOf_of_filter {w₁ : World ι} {keep : Entry → Bool} {now : ℕ}
    (h : w₁.keys = (w.asOf w₁.now).keys.filter keep) (hnow : w₁.now ≤ now) :
    (w₁.asOf now).keys = (w.asOf now).keys.filter keep := by
  have hlater : (w.asOf now).keys =
      (w.asOf w₁.now).keys.filter fun x => decide (now ≤ x.expiresAt) :=
    World.keys_asOf (w := w.asOf w₁.now) hnow
  rw [World.keys_asOf hnow, h, hlater, List.filter_filter, List.filter_filter]
  exact List.filter_congr fun x _ => Bool.and_comm _ _

/-- What is found in the keys that pass a test. -/
theorem find?_filter_key {l : List Entry} (keep : String → Bool) {key : String} :
    (l.filter fun x => keep x.key).find? (fun x => x.key == key) =
      if keep key = true then l.find? fun x => x.key == key else none := by
  rw [List.find?_filter]
  by_cases hkeep : keep key = true
  · rw [if_pos hkeep]
    congr 1
    funext x
    by_cases hx : x.key = key
    · simp [hx, hkeep]
    · simp [hx]
  · rw [if_neg hkeep, List.find?_eq_none]
    intro x _ hx
    simp only [beq_iff_eq, decide_eq_true_eq] at hx
    exact hkeep (hx.2 ▸ hx.1)

end Keys

section Alone

/-- The call of task `t` without a rejection and with nothing beside it. -/
abbrev Ends {α : Type} (E : Settings) (t : Task ι) (p : Promise α) (w : World ι)
    (o : Except Err α) (w' : World ι) : Prop :=
  Finishes (server E) t .resolves p w o w'

variable {t : Task ι}

theorem Ends.of_call {q : Operation} {o : Except Err q.Reply} (h : Ends E t (call q) w o w') :
    ∃ w₁ w₂, w.Passes w₁ ∧ w₁.answer E t q = some (o, w₂) ∧ w₂.Passes w' := by
  obtain ⟨w₁, w₂, hbefore, hserve, hafter⟩ := Finishes.of_perform World.Passes.refl
    (fun d _ _ _ => passes_drift d) h
  obtain ⟨⟨r, w₃⟩, hanswer, heq⟩ := Option.map_eq_some_iff.mp hserve
  cases heq
  exact ⟨w₁, w₃, hbefore, hanswer, ⟨hafter.redis, hafter.now⟩⟩

theorem Ends.of_pure {α : Type} {a : α} {o : Except Err α} (h : Ends E t (.pure a) w o w') :
    o = .ok a ∧ w.Passes w' :=
  Finishes.of_ofOutcome (o := .ok a) World.Passes.refl (fun d _ _ _ => passes_drift d) h

/-- A scan finds only keys that match, and all that outlive it. -/
structure Found (E : Settings) (pattern : String) (cursors : ℕ) (keys : List String)
    (w w' : World ι) : Prop where
  passes : w.Passes w'
  sound : ∀ key ∈ keys, Redis.isMatch pattern key = true
  complete : ∀ x ∈ (w.asOf w'.now).keys, (E.slot x.key).val < cursors →
    Redis.isMatch pattern x.key = true → x.key ∈ keys

theorem ends_scanStream {pattern : String} {cursors : ℕ} {o : Except Err (List String)}
    (h : Ends E t (scanStream pattern cursors) w o w') :
    ∃ keys, o = .ok keys ∧ Found E pattern cursors keys w w' := by
  induction cursors generalizing w o w' with
  | zero =>
    obtain ⟨rfl, hpasses⟩ := h.of_pure
    refine ⟨[], rfl, hpasses, fun key hkey => (List.not_mem_nil hkey).elim, fun x _ hx => ?_⟩
    exact absurd hx (Nat.not_lt_zero _)
  | succ cursors ih =>
    rw [scanStream, bind_eq] at h
    rcases Finishes.of_bind h with ⟨chunk, w₁, hcall, hrest⟩ | ⟨e, -, hcall⟩
    · obtain ⟨w₂, w₃, hbefore, hanswer, hafter⟩ := Ends.of_call hcall
      cases hanswer
      rw [bind_eq] at hrest
      rcases Finishes.of_bind hrest with ⟨keys, w₄, hkeys, hpure⟩ | ⟨e, -, hkeys⟩
      · obtain ⟨keys', heq, hfound⟩ := ih hkeys
        cases heq
        obtain ⟨rfl, hlast⟩ := Ends.of_pure hpure
        have hfirst := hbefore.trans (hafter.trans hfound.passes)
        refine ⟨_, rfl, hfirst.trans hlast, fun key hkey => ?_, fun x hx hslot hmatch => ?_⟩
        · rcases List.mem_append.mp hkey with hkey | hkey
          · exact World.isMatch_of_mem_scan hkey
          · exact hfound.sound key hkey
        · obtain ⟨hmem, halive⟩ := World.mem_keys.mp hx
          have hredis : x ∈ w₂.redis := hbefore.redis.symm ▸ hmem
          have hnow : w₂.now ≤ w'.now := (hafter.trans (hfound.passes.trans hlast)).now
          rw [List.mem_append]
          rcases Nat.lt_succ_iff_lt_or_eq.mp hslot with hlt | heq
          · have hkeep : x ∈ (w₁.asOf w₄.now).keys := by
              apply World.mem_keys.mpr
              exact ⟨hafter.redis.symm ▸ hredis, hlast.now.trans halive⟩
            exact Or.inr (hfound.complete x hkeep hlt hmatch)
          · have hscan := World.mem_scan (E := E) hredis (hnow.trans halive) hmatch
            rw [heq] at hscan
            exact Or.inl hscan
      · obtain ⟨keys', heq, -⟩ := ih hkeys
        cases heq
    · obtain ⟨w₂, w₃, -, hanswer, -⟩ := Ends.of_call hcall
      cases hanswer

/-- What is left of the live keys once those with the given beginning are gone. -/
theorem ends_invalidateCacheByPrefix {start : String} {o : Except Err Unit}
    (h : Ends E t (Cache.invalidateCacheByPrefix E start) w o w') :
    o = .ok () ∧ w.now ≤ w'.now ∧ w'.keys =
      (w.asOf w'.now).keys.filter fun x => !Redis.isMatch (start ++ "*") x.key := by
  rw [Cache.invalidateCacheByPrefix, bind_eq] at h
  rcases Finishes.of_bind h with ⟨keys, w₁, hscan, hrest⟩ | ⟨e, -, hscan⟩
  · obtain ⟨keys', heq, hfound⟩ := ends_scanStream hscan
    cases heq
    obtain ⟨rfl, hnow, hredis⟩ : o = .ok () ∧ w₁.now ≤ w'.now ∧
        w'.redis = w.redis.filter fun x => decide (x.key ∉ keys) := by
      split_ifs at hrest with hempty
      · obtain ⟨rfl, hlast⟩ := Ends.of_pure hrest
        refine ⟨rfl, hlast.now, ?_⟩
        simp [hlast.redis, hfound.passes.redis, List.isEmpty_iff.mp hempty]
      · obtain ⟨w₂, w₃, hbefore, hanswer, hafter⟩ := Ends.of_call hrest
        cases hanswer
        refine ⟨rfl, hbefore.now.trans hafter.now, ?_⟩
        rw [hafter.redis, World.erase, hbefore.redis, hfound.passes.redis]
    refine ⟨rfl, hfound.passes.now.trans hnow, ?_⟩
    -- What is alive in the end and matches was alive when it was scanned.
    have hgone : ∀ x ∈ (w.asOf w'.now).keys,
        decide (x.key ∉ keys) = !Redis.isMatch (start ++ "*") x.key := by
      intro x hx
      obtain ⟨hmem, halive⟩ := World.mem_keys.mp hx
      have hx₁ : x ∈ (w.asOf w₁.now).keys := World.mem_keys.mpr ⟨hmem, hnow.trans halive⟩
      have hiff : x.key ∈ keys ↔ Redis.isMatch (start ++ "*") x.key = true :=
        ⟨hfound.sound x.key, hfound.complete x hx₁ (E.slot x.key).isLt⟩
      by_cases hmatch : Redis.isMatch (start ++ "*") x.key = true
      · simp [hmatch, hiff]
      · simp [hmatch, hiff]
    calc w'.keys = (w.redis.filter fun x => decide (x.key ∉ keys)).filter
          fun x => decide (w'.now ≤ x.expiresAt) := by rw [World.keys, hredis]
      _ = (w.asOf w'.now).keys.filter fun x => decide (x.key ∉ keys) := by
          rw [World.keys, World.asOf, List.filter_filter, List.filter_filter]
          exact List.filter_congr fun x _ => Bool.and_comm _ _
      _ = (w.asOf w'.now).keys.filter fun x => !Redis.isMatch (start ++ "*") x.key :=
          List.filter_congr hgone
  · obtain ⟨keys, heq, -⟩ := ends_scanStream hscan
    cases heq

/-- The keys an invalidation of the slug looks for. -/
def removes (slug key : String) : Bool :=
  (decide (slug ≠ "") && Redis.isMatch (slugPattern slug) key) ||
    Redis.isMatch "wpcms:properties:*" key

theorem ends_invalidatePropertyCache {o : Except Err Unit}
    (h : Ends E t (Cache.invalidatePropertyCache E (some slug)) w o w') :
    o = .ok () ∧ w.now ≤ w'.now ∧
      w'.keys = (w.asOf w'.now).keys.filter fun x => !removes slug x.key := by
  simp only [Cache.invalidatePropertyCache, bind_eq] at h
  by_cases hslug : slug = ""
  · rw [if_pos hslug] at h
    obtain ⟨rfl, hnow, hkeys⟩ := ends_invalidateCacheByPrefix h
    refine ⟨rfl, hnow, hkeys.trans (List.filter_congr fun x _ => ?_)⟩
    simp [removes, hslug]
  · rw [if_neg hslug] at h
    rcases Finishes.of_bind h with ⟨u, w₁, hfirst, hsecond⟩ | ⟨e, -, hfirst⟩
    · obtain ⟨-, hnow₁, hkeys₁⟩ := ends_invalidateCacheByPrefix hfirst
      obtain ⟨rfl, hnow, hkeys⟩ := ends_invalidateCacheByPrefix hsecond
      refine ⟨rfl, hnow₁.trans hnow, ?_⟩
      rw [hkeys, World.keys_asOf_of_filter hkeys₁ hnow, List.filter_filter]
      apply List.filter_congr
      intro x _
      simp [removes, hslug, slugPattern, Bool.and_comm]
    · obtain ⟨heq, -⟩ := ends_invalidateCacheByPrefix hfirst
      cases heq

/-- The whole of Redis after the invalidation. -/
theorem entry_invalidated {o : Except Err Unit}
    (h : Ends E t (Cache.invalidatePropertyCache E (some slug)) w o w') (key : String) :
    w'.entry key = if removes slug key = true then none else (w.asOf w'.now).entry key := by
  obtain ⟨-, -, hkeys⟩ := ends_invalidatePropertyCache h
  rw [World.entry, hkeys, find?_filter_key fun key => !removes slug key]
  cases removes slug key <;> rfl

/-- Redis answers all that an invalidation asks. -/
theorem invalidatePropertyCache_ends (E : Settings) (w : World ι) (i : ι) (slug : String) :
    ∃ o w', Ends E (.request i) (Cache.invalidatePropertyCache E (some slug)) w o w' ∧
      w'.now = w.now := by
  refine finishes_of_uses (uses_invalidatePropertyCache (some slug))
    (fun q w₁ hq (hw₁ : w₁.now = w.now) => ?_) rfl
  cases q with
  | scan cursor pattern => exact ⟨_, _, rfl, hw₁⟩
  | del keys => exact ⟨_, _, rfl, hw₁⟩
  | _ => cases hq

end Alone

section PatternMeaning

variable {c : System ι}

/-- The key of a listing page. -/
def IsListing (key : String) : Prop := ∃ rest, key = "wpcms:properties:" ++ rest

/-- The entry of the slug and the listing pages are gone, and every other key is as it was,
save that time has passed. -/
def ClearsExactly (slug : String) (w w' : World ι) : Prop :=
  ∀ key, (key = (CmsQuery.property slug).cacheKey ∨ IsListing key → w'.entry key = none) ∧
    (¬ (key = (CmsQuery.property slug).cacheKey ∨ IsListing key) →
      w'.entry key = (w.asOf w'.now).entry key)

/-- Of the live keys beside the listing pages, the pattern of the slug matches the key of the
slug, and no other. -/
def PatternMeansSlug (slug : String) (w : World ι) : Prop :=
  ∀ x ∈ w.keys, ¬ IsListing x.key →
    (slug ≠ "" ∧ Redis.isMatch (slugPattern slug) x.key = true ↔
      x.key = (CmsQuery.property slug).cacheKey)

theorem isMatch_listing_iff {key : String} :
    Redis.isMatch "wpcms:properties:*" key = true ↔ IsListing key := by
  have hplain : (Redis.utf8 "wpcms:properties:").all Redis.isPlain = true := by decide
  exact Redis.isMatch_start_iff (List.all_eq_true.mp hplain) (by decide) key

instance (key : String) : Decidable (IsListing key) := decidable_of_iff _ isMatch_listing_iff

theorem removes_iff {key : String} : removes slug key = true ↔
    (slug ≠ "" ∧ Redis.isMatch (slugPattern slug) key = true) ∨ IsListing key := by
  rw [removes, Bool.or_eq_true, Bool.and_eq_true, decide_eq_true_eq, isMatch_listing_iff]

omit [DecidableEq ι] in
theorem World.entry_eq_none_iff {key : String} :
    w.entry key = none ↔ ∀ x ∈ w.keys, x.key ≠ key := by
  rw [World.entry, List.find?_eq_none]
  simp

theorem clearsExactly_of_pattern (hpattern : PatternMeansSlug slug w) {o : Except Err Unit}
    (h : Ends E (.request i) (Cache.invalidatePropertyCache E (some slug)) w o w') :
    ClearsExactly slug w w' := by
  have hnow := (ends_invalidatePropertyCache h).2.1
  intro key
  rw [entry_invalidated h key]
  by_cases hlisting : IsListing key
  · rw [if_pos (removes_iff.mpr (Or.inr hlisting))]
    exact ⟨fun _ => rfl, fun hnot => absurd (Or.inr hlisting) hnot⟩
  cases hentry : (w.asOf w'.now).entry key with
  | none => simp
  | some x =>
    obtain ⟨hx, rfl, halive⟩ := World.mem_of_entry hentry
    have hkeys : x ∈ w.keys := World.mem_keys.mpr ⟨hx, hnow.trans halive⟩
    have hiff := hpattern x hkeys hlisting
    constructor
    · intro hown
      rw [if_pos (removes_iff.mpr (Or.inl (hiff.mpr (hown.resolve_right hlisting))))]
    · intro hother
      have hkept : ¬ removes slug x.key = true := fun hremoved =>
        hother (Or.inl (hiff.mp ((removes_iff.mp hremoved).resolve_right hlisting)))
      rw [if_neg hkept]

theorem pattern_of_clearsExactly (E : Settings) (i : ι) (h : ∀ o w',
    Ends E (.request i) (Cache.invalidatePropertyCache E (some slug)) w o w' →
      ClearsExactly slug w w') : PatternMeansSlug slug w := by
  obtain ⟨o, w', hends, hnow⟩ := invalidatePropertyCache_ends E w i slug
  intro x hx hlisting
  have hclears := h o w' hends x.key
  have hasOf : w.asOf w'.now = w := by rw [hnow]; rfl
  have hpresent : w.entry x.key ≠ none := by
    intro hnone
    exact World.entry_eq_none_iff.mp hnone x hx rfl
  rw [entry_invalidated hends, hasOf] at hclears
  constructor
  · intro hremoved
    by_contra hother
    have hsame := hclears.2 fun hor => hor.elim hother hlisting
    rw [if_pos (removes_iff.mpr (Or.inl hremoved))] at hsame
    exact hpresent hsame.symm
  · intro hown
    by_contra hkept
    have hgone := hclears.1 (Or.inl hown)
    rw [if_neg fun hremoved => hkept ((removes_iff.mp hremoved).resolve_right hlisting)] at hgone
    exact hpresent hgone

omit [DecidableEq ι] in
/-- A slug without special characters has to begin no other cached slug. -/
theorem patternMeansSlug_of_plain (hslug : slug ≠ "")
    (hplain : ∀ a ∈ Redis.utf8 (CmsQuery.property slug).cacheKey, Redis.isPlain a = true)
    (hothers : ∀ x ∈ w.keys, ∀ rest, x.key = (CmsQuery.property slug).cacheKey ++ rest →
      rest = "") : PatternMeansSlug slug w := by
  have hkey : Redis.utf8 (CmsQuery.property slug).cacheKey ≠ [] := by
    have hstart : Redis.utf8 "wpcms:property:" ≠ [] := by decide
    intro hnil
    have hkey : Redis.utf8 ("wpcms:property:" ++ slug) = [] := hnil
    rw [Redis.utf8_append] at hkey
    exact hstart (List.append_eq_nil_iff.mp hkey).1
  intro x hx _
  rw [slugPattern, Redis.isMatch_start_iff hplain hkey]
  constructor
  · rintro ⟨-, rest, hrest⟩
    rw [hrest, hothers x hx rest hrest, String.append_empty]
  · intro hown
    exact ⟨hslug, "", by rw [hown, String.append_empty]⟩

/-- Left to itself the call completes, and it clears what it is for, and nothing else, exactly
when the pattern of the slug means the slug among the live keys. -/
theorem clearsExactly_iff (hprogram : c.program (.request i) =
    (Call.invalidatePropertyCache (some slug)).program E) :
    (∃ c', AloneRun (server E) (.request i) .resolves c c' ∧
      c'.program (.request i) = .pure none) ∧
    ((∀ c', AloneRun (server E) (.request i) .resolves c c' →
      (c'.program (.request i)).Ended → c'.program (.request i) = .pure none ∧
        ClearsExactly slug c.world c'.world) ↔ PatternMeansSlug slug c.world) := by
  have hstart : ∀ {o w'}, Ends E (.request i) (c.program (.request i)) c.world o w' ↔
      ∃ o', o = o'.map (fun _ => none) ∧
        Ends E (.request i) (Cache.invalidatePropertyCache E (some slug)) c.world o' w' := by
    intro o w'
    rw [hprogram]
    exact finishes_bind_pure
  have hcompletes : ∀ o w', Ends E (.request i) (Cache.invalidatePropertyCache E (some slug))
      c.world o w' → ∃ c', AloneRun (server E) (.request i) .resolves c c' ∧
        c'.program (.request i) = .pure none ∧ c'.world = w' := by
    intro o w' hends
    obtain rfl := (ends_invalidatePropertyCache hends).1
    exact run_of_finishes (hstart.mpr ⟨_, rfl, hends⟩) rfl rfl
  refine ⟨?_, fun h => ?_, fun hpattern c' hrun hended => ?_⟩
  · obtain ⟨o, w', hends, -⟩ := invalidatePropertyCache_ends E c.world i slug
    obtain ⟨c', hrun, hdone, -⟩ := hcompletes o w' hends
    exact ⟨c', hrun, hdone⟩
  · apply pattern_of_clearsExactly E i
    intro o w' hends
    obtain ⟨c', hrun, hdone, rfl⟩ := hcompletes o w' hends
    exact (h c' hrun (by rw [hdone]; trivial)).2
  · obtain ⟨o, hdone⟩ := hended.outcome
    obtain ⟨o', rfl, hends⟩ := hstart.mp (finishes_of_run hrun hdone)
    obtain rfl := (ends_invalidatePropertyCache hends).1
    exact ⟨hdone, clearsExactly_of_pattern hpattern hends⟩

end PatternMeaning

section Samples

def entryOf (key : String) : Entry := ⟨key, ⟨samplePage 0, 0⟩, 21600000⟩

/-- Redis with two properties and a listing page. -/
def cachedWorld (key key' : String) : World ℕ where
  now := 0
  cms _ := samplePage 0
  redis := [entryOf key, entryOf key', entryOf "wpcms:properties:20:start"]
  detached _ := false
  journal := []

/-- Call 0 invalidates the slug. -/
def invalidating (slug : String) (w : World ℕ) : System ℕ :=
  Config.start w fun _ => (Call.invalidatePropertyCache (some slug)).program sampleSettings

theorem patternMeansSlug_villa : PatternMeansSlug "villa"
    (cachedWorld "wpcms:property:villa" "wpcms:property:sea-view") := by
  have hplain : (Redis.utf8 (CmsQuery.property "villa").cacheKey).all Redis.isPlain = true := by
    decide
  apply patternMeansSlug_of_plain (by decide) (List.all_eq_true.mp hplain)
  intro x hx rest hrest
  rcases List.mem_cons.mp (List.mem_filter.mp hx).1 with rfl | hx
  · have hkey : (entryOf "wpcms:property:villa").key = (CmsQuery.property "villa").cacheKey := by
      decide
    have hchars := congrArg String.toList (hkey.symm.trans hrest)
    rw [String.toList_append] at hchars
    exact String.toList_injective (List.self_eq_append_right.mp hchars)
  · have hmatch : Redis.isMatch (slugPattern "villa") x.key = true :=
      (Redis.isMatch_start_iff (List.all_eq_true.mp hplain) (by decide) _).mpr ⟨rest, hrest⟩
    rcases List.mem_cons.mp hx with rfl | hx
    · exact absurd hmatch (by decide)
    · rw [List.mem_singleton.mp hx] at hmatch
      exact absurd hmatch (by decide)

/-- The entry of `sea-view` outlives an invalidation of `villa`. -/
theorem clearsExactly_sample : ∃ c' : System ℕ, AloneRun (server sampleSettings) (.request 0)
    .resolves (invalidating "villa"
      (cachedWorld "wpcms:property:villa" "wpcms:property:sea-view")) c' ∧
    ClearsExactly "villa" (cachedWorld "wpcms:property:villa" "wpcms:property:sea-view")
      c'.world := by
  have hprogram : (invalidating "villa" (cachedWorld "wpcms:property:villa"
      "wpcms:property:sea-view")).program (.request 0) =
      (Call.invalidatePropertyCache (some "villa")).program sampleSettings := rfl
  obtain ⟨⟨c', hrun, hdone⟩, hiff⟩ := clearsExactly_iff hprogram
  exact ⟨c', hrun, (hiff.mpr patternMeansSlug_villa c' hrun (by rw [hdone]; trivial)).2⟩

/-- The entry of `villa-2` goes with that of `villa`. -/
theorem not_clearsExactly : ¬ ∀ (E : Settings) (w w' : World ℕ) (i : ℕ) (slug : String)
    (o : Except Err Unit),
    Ends E (.request i) (Cache.invalidatePropertyCache E (some slug)) w o w' →
      ClearsExactly slug w w' := by
  intro hclaim
  have hpattern := pattern_of_clearsExactly sampleSettings 0
    (w := cachedWorld "wpcms:property:villa" "wpcms:property:villa-2")
    fun o w' => hclaim sampleSettings _ w' 0 "villa" o
  have hcached : entryOf "wpcms:property:villa-2" ∈
      (cachedWorld "wpcms:property:villa" "wpcms:property:villa-2").keys :=
    List.mem_cons_of_mem _ List.mem_cons_self
  have hiff := hpattern _ hcached (by decide)
  exact absurd (hiff.mp ⟨by decide, by decide⟩) (by decide)

end Samples

end PropertyPlatform.Cache
