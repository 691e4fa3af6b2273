import PropertyPlatform.Js.Decimal
import PropertyPlatform.Cache.Invalidation

/-!
# The keys of the property requests

A listing request is cached under the page size and the cursor it was coerced to, with
`start` in the place of a missing cursor. Keys of different arguments differ unless one
request has no cursor and another gives `start` as its cursor.
-/

namespace PropertyPlatform.Cache

open Js Async Program

section Arguments

/-- A JavaScript number. -/
inductive Double where
  | finite (x : Number)
  | infinity
  | negInfinity
  | nan

-- What `Number(s)` is for a string.
variable (stringToNumber : String → Double)

/-- `ToLength`. -/
def Double.toLength : Double → ℕ
  | .finite x => Value.numberToLength x
  | .infinity => 2 ^ 53 - 1
  | _ => 0

/-- `Number(value)`, which throws for an object that has no conversion to a primitive. -/
def toNumber : Value → Option Double
  | .null => some (.finite .zero)
  | .bool b => some (.finite (if b then .one else .zero))
  | .num x => some (.finite x)
  | v =>
    match v.toPrimitive fun s => (stringToNumber s).toLength with
    | .throws => none
    | .illFormed => some .nan
    | .text s => some (stringToNumber (String.ofList s))

def twenty : Number := ⟨false, 2, 1, by decide⟩
def fifty : Number := ⟨false, 5, 1, by decide⟩

def exceedsFifty (x : Number) : Bool :=
  !x.negative && (if 0 ≤ x.exp then decide (50 < x.digits * 10 ^ x.exp.toNat)
    else decide (50 * 10 ^ (-x.exp).toNat < x.digits))

/-- `Math.min(x || 20, 50)`. -/
def coerceSize : Double → PageSize
  | .nan => .number twenty
  | .finite x => .number (if x.digits = 0 then twenty else if exceedsFifty x then fifty else x)
  | .infinity => .number fifty
  | .negInfinity => .negInfinity

/-- The size for `req.query.first`. -/
def pageSize (first : Option Value) : Option PageSize :=
  (first.elim (some .nan) (toNumber stringToNumber)).map coerceSize

/-- `typeof after === 'string' ? after : undefined`. A query string is decoded from UTF-8, so
that its texts are well formed. -/
def cursor : Option Value → Option String
  | some (.str s) => some s.toWellFormed
  | _ => none

/-- The requests of the property routes. -/
inductive PropertyRequest where
  | list (first after : Option Value)
  | bySlug (slug : String)
  | invalidate (slug : Option String)

/-- What the request asks the CMS for. -/
def PropertyRequest.query : PropertyRequest → Option CmsQuery
  | .list first after =>
    (pageSize stringToNumber first).map fun first => .properties first (cursor after)
  | .bySlug slug => some (.property slug)
  | .invalidate _ => none

/-- The call of a request that does not throw before. -/
def PropertyRequest.call (E : Settings) : PropertyRequest → Option Call
  | .list first after =>
    (PropertyRequest.query stringToNumber (.list first after)).map (Call.fetch E)
  | .bySlug slug => some (.fetch E (.property slug))
  | .invalidate slug => some (.invalidatePropertyCache slug)

/-- The sizes that requests are coerced to. -/
def PageSize.Coerced : PageSize → Prop
  | .number x => x.digits ≠ 0
  | .negInfinity => True

variable {stringToNumber} {first first' : PageSize} {q q' : CmsQuery}

theorem coerced_size (x : Double) : (coerceSize x).Coerced := by
  have htwenty : twenty.digits ≠ 0 := by decide
  have hfifty : fifty.digits ≠ 0 := by decide
  cases x with
  | nan => exact htwenty
  | infinity => exact hfifty
  | negInfinity => trivial
  | finite x =>
    rw [coerceSize]
    split_ifs with hx hlarge
    · exact htwenty
    · exact hfifty
    · exact hx

theorem coerced_pageSize {v : Option Value} (h : pageSize stringToNumber v = some first) :
    first.Coerced := by
  obtain ⟨x, -, rfl⟩ := Option.map_eq_some_iff.mp h
  exact coerced_size x

/-- Different sizes are printed differently. -/
theorem PageSize.text_injective (h : first.Coerced) (h' : first'.Coerced)
    (htext : first.text = first'.text) : first = first' := by
  have hinfinity : ∀ x : Number, x.toText ≠ "-Infinity".toList := by
    intro x hx
    have hletter := x.toText_chars 'I' (by rw [hx]; decide)
    exact absurd hletter (by decide)
  cases first with
  | number x =>
    cases first' with
    | number y => rw [x.toText_injective h h' (String.ofList_injective htext)]
    | negInfinity => exact absurd (String.ofList_injective htext) (hinfinity x)
  | negInfinity =>
    cases first' with
    | number y => exact absurd (String.ofList_injective htext.symm) (hinfinity y)
    | negInfinity => rfl

theorem PageSize.colon_not_mem_text (first : PageSize) : ':' ∉ first.text.toList := by
  cases first with
  | number x =>
    intro hcolon
    rw [PageSize.text, String.toList_ofList] at hcolon
    exact absurd (x.toText_chars ':' hcolon) (by decide)
  | negInfinity => decide

/-- The key of a listing with a cursor ends with the cursor, that of a listing without one
with `start`. -/
theorem properties_cacheKey_inj {after after' : Option String} (h : first.Coerced)
    (h' : first'.Coerced) (hkey : (CmsQuery.properties first after).cacheKey =
      (CmsQuery.properties first' after').cacheKey) :
    first = first' ∧ after.getD "start" = after'.getD "start" := by
  have htext : "wpcms:properties:" ++ first.text ++ ":" ++ after.getD "start" =
      "wpcms:properties:" ++ first'.text ++ ":" ++ after'.getD "start" := hkey
  have hchars := congrArg String.toList htext
  have hcolon : (":" : String).toList = [':'] := rfl
  simp only [String.toList_append, List.append_assoc, List.append_cancel_left_eq, hcolon,
    List.singleton_append] at hchars
  obtain ⟨hfirst, hafter⟩ :=
    append_separator_inj first.colon_not_mem_text first'.colon_not_mem_text hchars
  exact ⟨PageSize.text_injective h h' (String.toList_injective hfirst),
    String.toList_injective hafter⟩

/-- One listing has no cursor where the other has the text that stands for it. -/
def Placeholder (q q' : CmsQuery) : Prop :=
  ∃ first, q = .properties first none ∧ q' = .properties first (some "start")

/-- The arguments a request may give to the services. -/
def CmsQuery.Coerced : CmsQuery → Prop
  | .properties first _ => first.Coerced
  | .property _ => True

theorem coerced_query {r : PropertyRequest} (h : r.query stringToNumber = some q) : q.Coerced := by
  cases r with
  | list first after =>
    obtain ⟨size, hsize, rfl⟩ := Option.map_eq_some_iff.mp h
    exact coerced_pageSize hsize
  | bySlug slug =>
    cases h
    trivial
  | invalidate slug => cases h

theorem cacheKey_eq_iff (h : q.Coerced) (h' : q'.Coerced) :
    q.cacheKey = q'.cacheKey ↔ q = q' ∨ Placeholder q q' ∨ Placeholder q' q := by
  constructor
  · intro hkey
    cases q with
    | property slug =>
      cases q' with
      | property slug' => exact Or.inl (by rw [property_cacheKey_inj hkey])
      | properties first' after' => exact absurd hkey.symm (properties_cacheKey_ne _ _ _)
    | properties first after =>
      cases q' with
      | property slug' => exact absurd hkey (properties_cacheKey_ne _ _ _)
      | properties first' after' =>
        obtain ⟨rfl, hafter⟩ := properties_cacheKey_inj h h' hkey
        cases after with
        | none =>
          cases after' with
          | none => exact Or.inl rfl
          | some s =>
            obtain rfl : "start" = s := hafter
            exact Or.inr (Or.inl ⟨first, rfl, rfl⟩)
        | some s =>
          cases after' with
          | none =>
            obtain rfl : s = "start" := hafter
            exact Or.inr (Or.inr ⟨first, rfl, rfl⟩)
          | some s' =>
            obtain rfl : s = s' := hafter
            exact Or.inl rfl
  · rintro (rfl | ⟨first, rfl, rfl⟩ | ⟨first, rfl, rfl⟩)
    · rfl
    · rfl
    · rfl

end Arguments

section Apart

variable {E : Settings} {ι : Type} [DecidableEq ι] {calls : ι → Call} {c : System ι}
variable {N : String → Double} {requests : ι → PropertyRequest}

/-- No listing of the run asks for the cursor `start` at a size at which another asks for the
first page. -/
def StartUnused (N : String → Double) (requests : ι → PropertyRequest) : Prop :=
  ∀ i j q q', (requests i).query N = some q → (requests j).query N = some q' →
    ¬ Placeholder q q'

/-- Requests for different things use different keys. -/
def KeysApart (N : String → Double) (requests : ι → PropertyRequest) : Prop :=
  ∀ i j q q', (requests i).query N = some q → (requests j).query N = some q' →
    q.cacheKey = q'.cacheKey → q = q'

/-- Whatever a request is served, the CMS had responded it to the same query. -/
def OwnPages (N : String → Double) (requests : ι → PropertyRequest) (c : System ι) : Prop :=
  ∀ i q page, (requests i).query N = some q → c.program (.request i) = .pure (some page) →
    ∃ t, (requests t.owner).query N = some q ∧ (t, ⟨.response q, .ok page⟩) ∈ c.trace

omit [DecidableEq ι] in
theorem keysApart_iff : KeysApart N requests ↔ StartUnused N requests := by
  constructor
  · rintro h i j q q' hi hj ⟨first, rfl, rfl⟩
    have heq := h i j _ _ hi hj rfl
    rw [CmsQuery.properties.injEq] at heq
    cases heq.2
  · intro h i j q q' hi hj hkey
    rcases (cacheKey_eq_iff (coerced_query hi) (coerced_query hj)).mp hkey with heq | hij | hji
    · exact heq
    · exact absurd hij (h i j q q' hi hj)
    · exact absurd hji (h j i q' q hj hi)

/-- The call of a request is the fetch of its query. -/
theorem PropertyRequest.call_of_query {r : PropertyRequest} {q : CmsQuery} {call : Call}
    (hcall : r.call N E = some call) (hq : r.query N = some q) : call = .fetch E q := by
  cases r with
  | list first after =>
    rw [PropertyRequest.call, hq] at hcall
    exact (Option.some.inj hcall).symm
  | bySlug slug =>
    cases hcall
    cases hq
    rfl
  | invalidate slug => cases hq

theorem PropertyRequest.query_of_call {r : PropertyRequest} {key : String}
    {ttl stale : Seconds} {q : CmsQuery}
    (hcall : r.call N E = some (.getOrSetWithSWR key ttl stale q)) :
    key = q.cacheKey ∧ r.query N = some q := by
  cases r with
  | list first after =>
    obtain ⟨q', hq', heq⟩ := Option.map_eq_some_iff.mp hcall
    rw [Call.fetch, Call.getOrSetWithSWR.injEq] at heq
    obtain ⟨rfl, -, -, rfl⟩ := heq
    exact ⟨rfl, hq'⟩
  | bySlug slug =>
    cases hcall
    exact ⟨rfl, rfl⟩
  | invalidate slug => cases hcall

omit [DecidableEq ι] in
/-- What was fetched for a key was fetched for the one query that has the key. -/
theorem Fetched.own (hcalls : ∀ i, (requests i).call N E = some (calls i))
    (hapart : KeysApart N requests) {t : Task ι} {i : ι} {q : CmsQuery} {page : Page}
    (hi : (requests i).query N = some q) (h : Fetched calls c t q.cacheKey page) :
    (requests t.owner).query N = some q ∧ (t, ⟨.response q, .ok page⟩) ∈ c.trace := by
  obtain ⟨ttl, stale, q', hcall, -, hmem⟩ := h
  have hcall' := hcalls t.owner
  rw [hcall] at hcall'
  obtain ⟨hkey, hq'⟩ := PropertyRequest.query_of_call hcall'
  obtain rfl := hapart i t.owner q q' hi hq' hkey
  exact ⟨hq', hmem⟩

/-- Keys are apart exactly when no cursor is the placeholder of a missing one, and then every
request of every run is served pages of its own query. -/
theorem ownPages_of_startUnused (hcalls : ∀ i, (requests i).call N E = some (calls i)) :
    (KeysApart N requests ↔ StartUnused N requests) ∧
    (StartUnused N requests → ∀ c, Reachable E calls c → OwnPages N requests c) := by
  refine ⟨keysApart_iff, fun hunused c h i q page hq hdone => ?_⟩
  have hapart := keysApart_iff.mpr hunused
  have hi : calls i = .fetch E q := PropertyRequest.call_of_query (hcalls i) hq
  have hrun := (h.request_run hi).2.1 page hdone
  rcases h.explained hi hrun with hfetched | hread
  · exact ⟨_, hfetched.own hcalls hapart hq⟩
  · obtain ⟨y, -, z, -, cachedAt, r, -, -, -, hfetched, -⟩ := hread
    exact ⟨_, hfetched.own hcalls hapart hq⟩

end Apart

section Samples

/-- Requests for the first page and, from request 1 on, for the page after a cursor. -/
def cursorRequests (after : String) : ℕ → PropertyRequest
  | 0 => .list none none
  | _ => .list none (some (.str after))

def cursorCalls (after : String) : ℕ → Call
  | 0 => .fetch sampleSettings (.properties (.number twenty) none)
  | _ => .fetch sampleSettings (.properties (.number twenty) (some after))

/-- `Number(s)` of the strings that name no number. -/
def notNumeric : String → Double := fun _ => .nan

theorem call_cursorRequests (after : String) (i : ℕ) :
    (cursorRequests after i).call notNumeric sampleSettings = some (cursorCalls after i) := by
  cases i <;> rfl

/-- Request 1 fetches and writes its page, then request 0 has two steps. -/
def cursorRun (after : String) : System ℕ :=
  sampleRun (cursorCalls after) (undisturbed (.request 1) 5 ++ undisturbed (.request 0) 2)

theorem startUnused_sample : StartUnused notNumeric (cursorRequests "MjA") := by
  rintro i j q q' hi hj ⟨first, rfl, rfl⟩
  have hne : (some "MjA" : Option String) ≠ some "start" := by decide
  cases j with
  | zero => cases hj
  | succ j =>
    have heq := Option.some.inj hj
    rw [CmsQuery.properties.injEq] at heq
    exact hne heq.2

/-- The first page and the one after `MjA` are cached apart. -/
theorem ownPages_sample : OwnPages notNumeric (cursorRequests "MjA") (cursorRun "MjA") :=
  (ownPages_of_startUnused (call_cursorRequests "MjA")).2 startUnused_sample _
    (reachable_sampleRun (by rfl))

/-- The first page is served as it was fetched for the cursor `start`. -/
theorem not_ownPages : ¬ ∀ (requests : ℕ → PropertyRequest) (calls : ℕ → Call) (c : System ℕ),
    (∀ i, (requests i).call notNumeric sampleSettings = some (calls i)) →
    Reachable sampleSettings calls c → OwnPages notNumeric requests c := by
  intro hclaim
  obtain ⟨t, -, hmem⟩ := hclaim _ _ (cursorRun "start") (call_cursorRequests "start")
    (reachable_sampleRun (by rfl)) 0 (.properties (.number twenty) none) (samplePage 0) rfl rfl
  have hnone : ((cursorRun "start").trace.all fun x =>
      match x.2.request with
      | .response (.properties _ none) => false
      | _ => true) = true := by rfl
  have hresponse := List.all_eq_true.mp hnone _ hmem
  cases hresponse

end Samples

end PropertyPlatform.Cache
