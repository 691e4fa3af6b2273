import PropertyPlatform.Listing

/-!
# Which list queries the database takes

The query schema caps the limit but not the page, so the offset of an accepted query can leave
the range of the statement.
-/

namespace PropertyPlatform

open Js

section Schema

variable (P : Platform)

/-- `z.coerce.number().int().min(1).default(…)`: only `undefined` takes the default. -/
def defaultedPositiveInt (default : ℕ) : Option Value → Except NativeError (Option ℕ)
  | none => .ok (some default)
  | some v => coercePositiveInt P (some v)

/-- `z.coerce.number().int().positive().optional()`. -/
def optionalPositiveInt : Option Value → Except NativeError (Option (Option ℕ))
  | none => .ok (some none)
  | some v => (coercePositiveInt P (some v)).map (Option.map some)

/-- `listEnquiriesQuerySchema.safeParse`: the data, `none` for a failed parse. -/
def listEnquiriesQuerySchema (query : Value) : Except NativeError (Option ListEnquiriesParams) :=
  if isObject query then do
    let page? ← defaultedPositiveInt P 1 (query.get "page")
    let limit? ← defaultedPositiveInt P 20 (query.get "limit")
    let cursor? ← optionalPositiveInt P (query.get "cursor")
    return do
      let page ← page?
      let limit ← limit?
      let status ← optionalStatus (query.get "status")
      let cursor ← cursor?
      if limit ≤ 100 then some ⟨page, limit, status, cursor⟩ else none
  else .ok none

end Schema

variable {P : Platform} {params : ListEnquiriesParams} {query : Value}

section Accepted

theorem pos_of_coerce {v : Option Value} {n : ℕ} (h : coercePositiveInt P v = .ok (some n)) :
    0 < n := by
  have hnumber : ∀ {x : Number}, x.toPositive? = some n → 0 < n := by
    intro x hx
    unfold Number.toPositive? at hx
    split_ifs at hx with hsign
    have hdigits : 0 < x.digits := by omega
    rw [← Option.some.inj hx]
    positivity
  unfold coercePositiveInt at h
  split at h
  · cases h
  · cases h
  · split_ifs at h
    · cases h
      exact Nat.one_pos
    · cases h
  · exact hnumber (Except.ok.inj h)
  · split at h
    · cases h
    · cases h
    · obtain ⟨x, -, hx⟩ := Option.bind_eq_some_iff.mp (Except.ok.inj h)
      exact hnumber hx

theorem exists_of_bind_ok {ε α β : Type} {x : Except ε α} {f : α → Except ε β} {b : β}
    (h : x.bind f = .ok b) : ∃ a, x = .ok a ∧ f a = .ok b := by
  cases x with
  | error e => cases h
  | ok a => exact ⟨a, rfl, h⟩

theorem defaultedPositiveInt_pos {default n : ℕ} (hdefault : 0 < default) {v : Option Value}
    (h : defaultedPositiveInt P default v = .ok (some n)) : 0 < n := by
  cases v with
  | none =>
    cases h
    exact hdefault
  | some v => exact pos_of_coerce h

theorem optionalPositiveInt_pos {cursor : Option ℕ} {v : Option Value}
    (h : optionalPositiveInt P v = .ok (some cursor)) : ∀ c ∈ cursor, 0 < c := by
  cases v with
  | none =>
    cases h
    intro c hc
    cases hc
  | some v =>
    intro c hc
    obtain rfl := Option.mem_def.mp hc
    cases hcoerced : coercePositiveInt P (some v) with
    | error e =>
      rw [optionalPositiveInt, hcoerced] at h
      cases h
    | ok n =>
      rw [optionalPositiveInt, hcoerced] at h
      obtain ⟨m, rfl, hm⟩ := Option.map_eq_some_iff.mp (Except.ok.inj h)
      exact Option.some.inj hm ▸ pos_of_coerce hcoerced

/-- A query that passes the schema is within its bounds. -/
theorem accepted_of_schema (h : listEnquiriesQuerySchema P query = .ok (some params)) :
    params.Accepted := by
  unfold listEnquiriesQuerySchema at h
  split_ifs at h with hobject
  · obtain ⟨page?, hpage, hlimits⟩ := exists_of_bind_ok h
    obtain ⟨limit?, hlimit, hcursors⟩ := exists_of_bind_ok hlimits
    obtain ⟨cursor?, hcursor, hdata⟩ := exists_of_bind_ok hcursors
    have hsome := Except.ok.inj hdata
    simp only [Option.bind_eq_bind, Option.bind_eq_some_iff] at hsome
    obtain ⟨page, rfl, limit, rfl, status, -, cursor, rfl, hparams⟩ := hsome
    split_ifs at hparams with hmax
    cases hparams
    exact ⟨defaultedPositiveInt_pos Nat.one_pos hpage,
      ⟨defaultedPositiveInt_pos (by decide) hlimit, hmax⟩, optionalPositiveInt_pos hcursor⟩
  · cases h

end Accepted

section Texts

theorem exists_toPositive {n : ℕ} (h : 0 < n) : ∃ x : Number, x.toPositive? = some n := by
  obtain ⟨e, d, hd, rfl⟩ := Nat.exists_eq_pow_mul_and_not_dvd h.ne' 10 (by decide)
  have hmod : d % 10 ≠ 0 := fun hzero => hd (Nat.dvd_of_mod_eq_zero hzero)
  have hpos : d ≠ 0 := by
    rintro rfl
    exact hmod rfl
  exact ⟨⟨false, d, e, .inl hmod⟩, by simp [Number.toPositive?, hpos, Nat.mul_comm]⟩

theorem optionalStatus_text (status : Option EnquiryStatus) :
    optionalStatus (status.map fun s => .str s.text) = some status := by
  cases status with
  | none => rfl
  | some s => cases s <;> rfl

theorem exists_cursorValue {cursor : Option ℕ} (h : ∀ c ∈ cursor, 0 < c) :
    ∃ v, optionalPositiveInt P v = .ok (some cursor) := by
  cases cursor with
  | none => exact ⟨none, rfl⟩
  | some c =>
    obtain ⟨x, hx⟩ := exists_toPositive (h c rfl)
    refine ⟨some (.num x), ?_⟩
    change (Except.ok x.toPositive?).map (Option.map some) = _
    rw [hx]
    rfl

/-- The query with these fields, where there are any. -/
def queryOf (page limit : Value) (status cursor : Option Value) : Value :=
  .object (([("page", page), ("limit", limit)] : List (JsString × Value)) ++
    (status.map fun v => (("status" : JsString), v)).toList ++
    (cursor.map fun v => (("cursor" : JsString), v)).toList)

theorem get_queryOf (page limit : Value) (status cursor : Option Value) :
    (queryOf page limit status cursor).get "page" = some page ∧
      (queryOf page limit status cursor).get "limit" = some limit ∧
      (queryOf page limit status cursor).get "status" = status ∧
      (queryOf page limit status cursor).get "cursor" = cursor := by
  cases status <;> cases cursor <;> exact ⟨rfl, rfl, rfl, rfl⟩

/-- The schema lets through exactly what the listing takes for granted. -/
theorem accepted_iff (P : Platform) (params : ListEnquiriesParams) :
    params.Accepted ↔ ∃ query, listEnquiriesQuerySchema P query = .ok (some params) := by
  constructor
  · rintro ⟨hpage, ⟨hlimit, hmax⟩, hcursor⟩
    obtain ⟨x, hx⟩ := exists_toPositive hpage
    obtain ⟨y, hy⟩ := exists_toPositive hlimit
    obtain ⟨v, hv⟩ := exists_cursorValue (P := P) hcursor
    obtain ⟨hgetPage, hgetLimit, hgetStatus, hgetCursor⟩ :=
      get_queryOf (.num x) (.num y) (params.status.map fun s => .str s.text) v
    refine ⟨queryOf (.num x) (.num y) (params.status.map fun s => .str s.text) v, ?_⟩
    have hobject : ∀ props, isObject (.object props) = true := fun _ => rfl
    have hpage? : defaultedPositiveInt P 1 (some (.num x)) = .ok (some params.page) :=
      congrArg Except.ok hx
    have hlimit? : defaultedPositiveInt P 20 (some (.num y)) = .ok (some params.limit) :=
      congrArg Except.ok hy
    rw [listEnquiriesQuerySchema, queryOf, if_pos (hobject _), ← queryOf, hgetPage, hgetLimit,
      hgetStatus, hgetCursor, hpage?, hlimit?, hv, optionalStatus_text]
    change Except.ok (if params.limit ≤ 100 then _ else _) = _
    rw [if_pos hmax]
  · rintro ⟨query, h⟩
    exact accepted_of_schema h

end Texts

section Bounds

/-- What `listEnquiries` binds in the statement, in exact arithmetic. -/
def ListEnquiriesParams.pageQuery (params : ListEnquiriesParams) : PageQuery :=
  let cursor := params.cursor.filter fun c => decide (c ≠ 0)
  ⟨params.status, cursor, params.limit, match cursor with
    | some _ => none
    | none => some (exactOffset params.page params.limit)⟩

/-- The statement of a listing is the one with these bounds. -/
theorem listEnquiries_eq (P : Platform) (db : Tables) (params : ListEnquiriesParams) :
    (listEnquiriesBy exactOffset P db params).map ListEnquiriesResult.data =
      (db.selectPage P params.pageQuery).map (List.map PageRow.toListedEnquiry) := by
  unfold listEnquiriesBy
  change Except.map _ (Except.bind (db.selectPage P params.pageQuery) _) = _
  cases db.selectPage P params.pageQuery <;> rfl

theorem pageQuery_cursor (hparams : params.Accepted) {c : ℕ} (hcursor : params.cursor = some c) :
    params.pageQuery = ⟨params.status, some c, params.limit, none⟩ := by
  have hpos : c ≠ 0 := (hparams.cursor c hcursor).ne'
  have htruthy : (params.cursor.filter fun c => decide (c ≠ 0)) = some c := by
    rw [hcursor]
    simp [hpos]
  rw [ListEnquiriesParams.pageQuery, htruthy]

theorem pageQuery_pages (hcursor : params.cursor = none) :
    params.pageQuery =
      ⟨params.status, none, params.limit, some ((params.page - 1) * params.limit)⟩ := by
  rw [ListEnquiriesParams.pageQuery, hcursor]
  rfl

/-- The bounds of the statement are unsigned 64-bit integers, the offset is the exact product,
and the listing is answered. -/
structure BoundsTaken (P : Platform) (db : Tables) (params : ListEnquiriesParams) : Prop where
  limit : params.pageQuery.limit < 2 ^ 64
  offset : ∀ n ∈ params.pageQuery.offset, n < 2 ^ 64
  exact_offset : ∀ n ∈ params.pageQuery.offset, (n : ℤ) = ((params.page : ℤ) - 1) * params.limit
  answered : ∃ result, listEnquiriesBy exactOffset P db params = .ok result

/-- A query that passes the schema is taken by the database exactly if it has a cursor or its
offset fits in 64 bits. -/
theorem boundsTaken_iff (P : Platform) (db : Tables) (query : Value)
    (params : ListEnquiriesParams)
    (haccepted : listEnquiriesQuerySchema P query = .ok (some params)) :
    BoundsTaken P db params ↔
      params.cursor.isSome = true ∨ (params.page - 1) * params.limit < 2 ^ 64 := by
  have hparams := accepted_of_schema haccepted
  have hmax := hparams.limit.2
  have hlimit : params.pageQuery.limit < 2 ^ 64 := by
    change params.limit < 2 ^ 64
    omega
  cases hcursor : params.cursor with
  | some c =>
    have hquery := pageQuery_cursor hparams hcursor
    obtain ⟨data, hlist, -⟩ :=
      listEnquiriesBy_cursor exactOffset P db params hmax hcursor (hparams.cursor c hcursor)
    have hnone : ∀ n, n ∉ params.pageQuery.offset := by
      rw [hquery]
      exact fun n => Option.not_mem_none n
    apply iff_of_true _ (.inl rfl)
    exact ⟨hlimit, fun n hn => absurd hn (hnone n), fun n hn => absurd hn (hnone n), _, hlist⟩
  | none =>
    have hquery := pageQuery_pages hcursor
    have hoffset : ∀ n ∈ params.pageQuery.offset, n = (params.page - 1) * params.limit := by
      rw [hquery]
      exact fun n hn => (Option.some.inj hn).symm
    rw [Option.isSome_none, or_iff_right Bool.false_ne_true]
    constructor
    · intro htaken
      apply htaken.offset
      rw [hquery]
      rfl
    · intro hfits
      obtain ⟨data, total, hlist, -⟩ :=
        listEnquiriesBy_pages exactOffset P db params hmax hcursor hfits
      refine ⟨hlimit, fun n hn => hoffset n hn ▸ hfits, fun n hn => ?_, _, hlist⟩
      rw [hoffset n hn]
      push_cast [hparams.page]
      rfl

/-- A query string without parameters. -/
theorem boundsTaken_sample :
    BoundsTaken .sample (growingTables 0) ⟨1, 20, none, none⟩ :=
  (boundsTaken_iff .sample (growingTables 0) (.object []) ⟨1, 20, none, none⟩ rfl).mpr
    (.inr (by decide))

/-- Reads the two numerals of the example as `Number` does. -/
def readingPlatform : Platform :=
  { Platform.sample with
    stringToNumber := fun s =>
      if s = "1000000000000000000" then some ⟨false, 1, 18, by decide⟩
      else if s = "100" then some ⟨false, 1, 2, by decide⟩
      else none }

def distantQuery : Value :=
  .object [("page", .str "1000000000000000000"), ("limit", .str "100")]

theorem coerce_str (P : Platform) (s : String) : coercePositiveInt P (some (.str s)) =
    .ok ((P.stringToNumber s).bind Number.toPositive?) := by
  simp [coercePositiveInt, Value.toPrimitive, Value.Primitive.ofString]

theorem coerce_distantQuery :
    coercePositiveInt readingPlatform (distantQuery.get "page") =
        .ok (some 1000000000000000000) ∧
      coercePositiveInt readingPlatform (distantQuery.get "limit") = .ok (some 100) := by
  have hpage : distantQuery.get "page" = some (.str "1000000000000000000") := rfl
  have hlimit : distantQuery.get "limit" = some (.str "100") := rfl
  rw [hpage, hlimit, coerce_str, coerce_str]
  constructor
  · exact congrArg Except.ok (by decide +kernel)
  · exact congrArg Except.ok (by decide +kernel)

/-- The schema lets a page through whose offset is no 64-bit integer. -/
theorem not_boundsTaken :
    listEnquiriesQuerySchema readingPlatform distantQuery =
        .ok (some ⟨1000000000000000000, 100, none, none⟩) ∧
      ¬ BoundsTaken readingPlatform (growingTables 0)
        ⟨1000000000000000000, 100, none, none⟩ := by
  constructor
  · obtain ⟨hpage, hlimit⟩ := coerce_distantQuery
    have hpage? : defaultedPositiveInt readingPlatform 1 (distantQuery.get "page") =
        .ok (some 1000000000000000000) := hpage
    have hlimit? : defaultedPositiveInt readingPlatform 20 (distantQuery.get "limit") =
        .ok (some 100) := hlimit
    have hobject : isObject distantQuery = true := rfl
    rw [listEnquiriesQuerySchema, if_pos hobject, hpage?, hlimit?]
    rfl
  · intro htaken
    have hoffset := htaken.offset ((1000000000000000000 - 1) * 100) rfl
    exact absurd hoffset (by decide)

end Bounds

end PropertyPlatform
