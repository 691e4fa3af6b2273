import PropertyPlatform.Consistency
import PropertyPlatform.Js.Integers
import PropertyPlatform.Paging.Keyset

/-!
# Listing enquiries

One statement selects the rows of a page and counts all rows that match. The page is cut by
an offset or, with a cursor, by a bound on the id. A page and a cursor are the integers that
their shortest decimals name.
-/

namespace PropertyPlatform

open Js Async Paging

/-- The tables that a listing joins, with what their keys and the foreign key guarantee. -/
structure Tables where
  enquiries : List EnquiryRecord
  /-- The title of each property. -/
  properties : ℕ → Option String
  ids_unique : (enquiries.map EnquiryRecord.id).Nodup
  ids_positive : ∀ row ∈ enquiries, 0 < row.id
  /-- The ids that are numbers without loss. -/
  ids_bounded : ∀ row ∈ enquiries, row.id < 2 ^ 53
  fk_enquiries_property : ∀ row ∈ enquiries, (properties row.propertyId).isSome = true

structure ListEnquiriesParams where
  page : ℕ
  limit : ℕ
  status : Option EnquiryStatus
  cursor : Option ℕ

/-- What `listEnquiriesQuerySchema` accepts. -/
structure ListEnquiriesParams.Accepted (params : ListEnquiriesParams) : Prop where
  page : 1 ≤ params.page
  limit : 1 ≤ params.limit ∧ params.limit ≤ 100
  cursor : ∀ c ∈ params.cursor, 0 < c

/-- `e.*` and the title of the joined property. -/
structure ListedEnquiry extends EnquiryRecord where
  propertyTitle : String

structure PageRow extends ListedEnquiry where
  totalCount : ℕ

/-- The conditions and the bounds of the statement. -/
structure PageQuery where
  status : Option EnquiryStatus
  cursor : Option ℕ
  limit : ℕ
  offset : Option ℕ

def hasStatus (status : Option EnquiryStatus) (row : EnquiryRecord) : Bool :=
  status.all fun s => row.status == s

def PageQuery.selects (q : PageQuery) (row : ListedEnquiry) : Bool :=
  hasStatus q.status row.toEnquiryRecord && q.cursor.all fun c => decide (row.id < c)

namespace Tables

variable (P : Platform) (db : Tables)

def joined : List ListedEnquiry :=
  db.enquiries.filterMap fun row => (db.properties row.propertyId).map fun title => ⟨row, title⟩

/-- `LIMIT` and `OFFSET` are unsigned 64-bit integers. -/
def selectPage (q : PageQuery) : Except Err (List PageRow) :=
  if 2 ^ 64 ≤ q.limit ∨ q.offset.any (fun n => decide (2 ^ 64 ≤ n)) = true then
    sqlError P 1064 "ER_PARSE_ERROR"
  else
    let rows := db.joined.filter q.selects
    let page := ((sortDesc (fun row => row.id) rows).drop (q.offset.getD 0)).take q.limit
    .ok (page.map fun row => ⟨row, rows.length⟩)

end Tables

inductive Pagination where
  | cursor (nextCursor : Option ℕ) (limit : ℕ)
  | pages (page limit total totalPages : ℕ)
  deriving DecidableEq

structure ListEnquiriesResult where
  data : List ListedEnquiry
  pagination : Pagination

/-- `(page - 1) * limit` on numbers, as the statement has it. -/
def offset (page limit : ℕ) : ℕ :=
  shortest (nearestNat (nearestNat (nearestNat page - 1) * limit))

def exactOffset (page limit : ℕ) : ℕ := (page - 1) * limit

/-- `listEnquiries`, with one way or another to form the offset. -/
def listEnquiriesBy (offset : ℕ → ℕ → ℕ) (P : Platform) (db : Tables)
    (params : ListEnquiriesParams) : Except Err ListEnquiriesResult := do
  -- `if (cursor)`
  let cursor := params.cursor.filter fun c => decide (c ≠ 0)
  let offset := match cursor with
    | some _ => none
    | none => some (offset params.page params.limit)
  let rows ← db.selectPage P ⟨params.status, cursor, params.limit, offset⟩
  let total := (rows.head?.map PageRow.totalCount).getD 0
  let data := rows.map PageRow.toListedEnquiry
  return ⟨data, match cursor with
    | some _ => .cursor (data.getLast?.map fun row => row.id) params.limit
    | none => .pages params.page params.limit total (ceilQuotient total params.limit)⟩

def listEnquiries : Platform → Tables → ListEnquiriesParams → Except Err ListEnquiriesResult :=
  listEnquiriesBy offset

/-- Below `2 ^ 53` nothing is rounded. -/
theorem offset_eq {page limit : ℕ} (hlimit : 0 < limit) (h : (page - 1) * limit < 2 ^ 53) :
    offset page limit = (page - 1) * limit := by
  have hpage : page - 1 < 2 ^ 53 := (Nat.le_mul_of_pos_right _ hlimit).trans_lt h
  have hself : nearestNat page = page := nearestNat_of_le (by omega)
  rw [offset, hself, nearestNat_of_lt hpage, nearestNat_of_lt h, shortest_of_lt h]

/-- The exact product is below `2 ^ 64`. -/
example : offset 6148914691236517000 3 = 18446744073709552000 := by decide

variable {P : Platform} {db db' : Tables} {params : ListEnquiriesParams}
variable {status : Option EnquiryStatus} {limit : ℕ}

namespace Tables

/-- All rows that match, with the newest first. -/
def matching (db : Tables) (status : Option EnquiryStatus) : List ListedEnquiry :=
  sortDesc (fun row => row.id) (db.joined.filter fun row => hasStatus status row.toEnquiryRecord)

/-- The join drops no row. -/
theorem joined_records (db : Tables) :
    db.joined.map ListedEnquiry.toEnquiryRecord = db.enquiries := by
  have hall : ∀ rows : List EnquiryRecord,
      (∀ row ∈ rows, (db.properties row.propertyId).isSome = true) →
      (rows.filterMap fun row => (db.properties row.propertyId).map
        fun title => (⟨row, title⟩ : ListedEnquiry)).map ListedEnquiry.toEnquiryRecord = rows := by
    intro rows hrows
    induction rows with
    | nil => rfl
    | cons row rows ih =>
      obtain ⟨title, htitle⟩ := Option.isSome_iff_exists.mp (hrows row List.mem_cons_self)
      have hrest := ih fun row hrow => hrows row (List.mem_cons_of_mem _ hrow)
      rw [List.filterMap_cons, htitle]
      exact congrArg (row :: ·) hrest
  exact hall db.enquiries db.fk_enquiries_property

theorem joined_ids_nodup (db : Tables) : (db.joined.map fun row => row.id).Nodup := by
  have hids := db.ids_unique
  rw [← db.joined_records, List.map_map] at hids
  exact hids

theorem matching_descending (db : Tables) (status : Option EnquiryStatus) :
    Descending (fun row : ListedEnquiry => row.id) (db.matching status) :=
  descending_sortDesc (db.joined_ids_nodup.sublist (List.filter_sublist.map _))

theorem mem_enquiries_of_mem_joined {row : ListedEnquiry} (h : row ∈ db.joined) :
    row.toEnquiryRecord ∈ db.enquiries := by
  rw [← db.joined_records]
  exact List.mem_map_of_mem h

theorem mem_matching {row : ListedEnquiry} : row ∈ db.matching status ↔
    row ∈ db.joined ∧ hasStatus status row.toEnquiryRecord = true := by
  rw [matching, mem_sortDesc, List.mem_filter]

/-- The rows that match are all the enquiries with the status. -/
theorem mem_matching_records {row : EnquiryRecord} :
    row ∈ (db.matching status).map ListedEnquiry.toEnquiryRecord ↔
      row ∈ db.enquiries ∧ hasStatus status row = true := by
  constructor
  · intro h
    obtain ⟨listed, hlisted, rfl⟩ := List.mem_map.mp h
    obtain ⟨hjoined, hstatus⟩ := mem_matching.mp hlisted
    exact ⟨mem_enquiries_of_mem_joined hjoined, hstatus⟩
  · rintro ⟨hrow, hstatus⟩
    rw [← db.joined_records] at hrow
    obtain ⟨listed, hlisted, rfl⟩ := List.mem_map.mp hrow
    exact List.mem_map_of_mem (mem_matching.mpr ⟨hlisted, hstatus⟩)

theorem sortDesc_selects (db : Tables) (q : PageQuery) :
    sortDesc (fun row : ListedEnquiry => row.id) (db.joined.filter q.selects) =
      (db.matching q.status).filter fun row => q.cursor.all fun c => decide (row.id < c) := by
  have hsplit : db.joined.filter q.selects =
      (db.joined.filter fun row => hasStatus q.status row.toEnquiryRecord).filter
        fun row => q.cursor.all fun c => decide (row.id < c) := by
    rw [List.filter_filter]
    exact List.filter_congr fun row _ => Bool.and_comm _ _
  rw [hsplit, sortDesc_filter (db.joined_ids_nodup.sublist (List.filter_sublist.map _))]
  rfl

/-- The statement, within the range of its bounds. -/
theorem selectPage_eq (db : Tables) {q : PageQuery} (hlimit : q.limit ≤ 100)
    (hoffset : ∀ n ∈ q.offset, n < 2 ^ 64) : ∃ rows, db.selectPage P q = .ok rows ∧
      rows.map PageRow.toListedEnquiry =
        (((db.matching q.status).filter fun row => q.cursor.all fun c => decide (row.id < c)).drop
          (q.offset.getD 0)).take q.limit ∧
      ∀ row ∈ rows, row.totalCount = (db.joined.filter q.selects).length := by
  have hrange : ¬ (2 ^ 64 ≤ q.limit ∨ q.offset.any (fun n => decide (2 ^ 64 ≤ n)) = true) := by
    rintro (h | h)
    · omega
    · cases hq : q.offset with
      | none => simp [hq] at h
      | some n =>
        rw [hq] at h
        exact absurd (hoffset n hq) (not_lt.mpr (of_decide_eq_true h))
  refine ⟨_, if_neg hrange, ?_, fun row hrow => ?_⟩
  · rw [List.map_map, ← sortDesc_selects]
    exact List.map_id _
  · obtain ⟨listed, -, rfl⟩ := List.mem_map.mp hrow
    rfl

end Tables

section Reached

variable {ι : Type} [DecidableEq ι] {calls : ι → Call P} {c : System ι}

/-- An enquiry is inserted for a property that is there. -/
theorem World.Served.property_known {w w' : World ι} {i : ι} {v : NewEnquiry} {id : ℕ}
    (h : w.Served P i (.insertEnquiry v) (.ok id) w') :
    (w.properties v.propertyId).isSome = true := by
  cases h with
  | answered h =>
    simp only [World.answer, World.insertEnquiry] at h
    split_ifs at h with hfits hdup hblocked hproperty
    · cases h
    · cases h
    · cases h
    · exact Option.isSome_iff_ne_none.mpr (by simpa using hproperty)

/-- The properties of all enquiries that have been inserted are there. -/
def PropertiesKnown (c : System ι) : Prop :=
  ∀ i v id, (i, ⟨.insertEnquiry v, .ok id⟩) ∈ c.trace →
    (c.world.properties v.propertyId).isSome = true

theorem Reachable.propertiesKnown (h : Reachable P calls c) : PropertiesKnown c := by
  refine h.induct ?_ ?_ ?_
  · exact fun now properties i v id hmem => by cases hmem
  · intro c i q k r w' _ hInv _ _ hserved j v id hmem
    rw [Config.answered_world, hserved.properties]
    rcases Config.mem_answered.mp hmem with hold | hnew
    · exact hInv j v id hold
    · cases hnew
      exact hserved.property_known
  · intro c d w' _ hInv hdrift i v id hmem
    exact World.property_of_drift hdrift (hInv i v id hmem)

/-- The tables of every state that is reached while the ids are numbers without loss. -/
def Reachable.tables (h : Reachable P calls c) (titles : ℕ → String)
    (hids : c.world.nextEnquiryId ≤ 2 ^ 53) : Tables where
  enquiries := c.world.enquiryRows
  properties id := (c.world.properties id).map fun _ => titles id
  ids_unique := h.consistent.ids_unique.sublist ((Table.committed_sublist _).map _)
  ids_positive row hrow := by
    obtain ⟨i, hi⟩ := h.consistent.inserted (Table.mem_contents_of_committed hrow)
    exact (h.consistent.inserted_below i _ _ hi).1
  ids_bounded row hrow :=
    (h.consistent.id_below (Table.mem_contents_of_committed hrow)).trans_le hids
  fk_enquiries_property row hrow := by
    obtain ⟨i, hi⟩ := h.consistent.inserted (Table.mem_contents_of_committed hrow)
    simpa using h.propertiesKnown i _ _ hi

end Reached

theorem listEnquiriesBy_cursor (form : ℕ → ℕ → ℕ) (P : Platform) (db : Tables)
    (params : ListEnquiriesParams) {c : ℕ} (hlimit : params.limit ≤ 100)
    (hcursor : params.cursor = some c) (hc : 0 < c) :
    ∃ data, listEnquiriesBy form P db params =
        .ok ⟨data, .cursor (data.getLast?.map fun row => row.id) params.limit⟩ ∧
      data = (below (fun row : ListedEnquiry => row.id) c (db.matching params.status)).take
        params.limit := by
  have htruthy : (params.cursor.filter fun c => decide (c ≠ 0)) = some c := by
    rw [hcursor]
    simp [hc.ne']
  obtain ⟨rows, hrows, hdata, -⟩ := Tables.selectPage_eq (P := P) db
    (q := ⟨params.status, some c, params.limit, none⟩) hlimit (fun n hn => by cases hn)
  refine ⟨rows.map PageRow.toListedEnquiry, ?_, ?_⟩
  · simp only [listEnquiriesBy, htruthy, hrows]
    rfl
  · rw [hdata]
    rfl

theorem listEnquiries_cursor (P : Platform) (db : Tables) (params : ListEnquiriesParams) {c : ℕ}
    (hlimit : params.limit ≤ 100) (hcursor : params.cursor = some c) (hc : 0 < c) :
    ∃ data, listEnquiries P db params =
        .ok ⟨data, .cursor (data.getLast?.map fun row => row.id) params.limit⟩ ∧
      data = (below (fun row : ListedEnquiry => row.id) c (db.matching params.status)).take
        params.limit :=
  listEnquiriesBy_cursor offset P db params hlimit hcursor hc

theorem listEnquiriesBy_pages (form : ℕ → ℕ → ℕ) (P : Platform) (db : Tables)
    (params : ListEnquiriesParams) (hlimit : params.limit ≤ 100) (hcursor : params.cursor = none)
    (hoffset : form params.page params.limit < 2 ^ 64) :
    ∃ data total, listEnquiriesBy form P db params =
        .ok ⟨data, .pages params.page params.limit total (ceilQuotient total params.limit)⟩ ∧
      data = ((db.matching params.status).drop (form params.page params.limit)).take
        params.limit ∧
      total = if data = [] then 0 else (db.matching params.status).length := by
  obtain ⟨rows, hrows, hdata, htotal⟩ := Tables.selectPage_eq (P := P) db
    (q := ⟨params.status, none, params.limit, some (form params.page params.limit)⟩) hlimit
    (fun n hn => by cases hn; exact hoffset)
  refine ⟨rows.map PageRow.toListedEnquiry, (rows.head?.map PageRow.totalCount).getD 0, ?_, ?_, ?_⟩
  · simp only [listEnquiriesBy, hcursor, Option.filter_none, hrows]
    rfl
  · rw [hdata]
    simp
  · cases rows with
    | nil => rfl
    | cons row rows =>
      have hcount : (db.joined.filter (PageQuery.selects ⟨params.status, none, params.limit,
          some (form params.page params.limit)⟩)).length =
          (db.matching params.status).length := by
        rw [← length_sortDesc fun row : ListedEnquiry => row.id, Tables.sortDesc_selects]
        simp
      rw [← hcount, ← htotal row List.mem_cons_self]
      rfl

/-- Distinct ids, none of them zero. -/
theorem Tables.length_matching_lt (db : Tables) (status : Option EnquiryStatus) :
    (db.matching status).length < 2 ^ 53 := by
  have hnodup : ((db.matching status).map fun row => row.id).Nodup :=
    List.pairwise_map.mpr ((db.matching_descending status).imp fun h => h.ne')
  have hsub : ((db.matching status).map fun row => row.id).toFinset ⊆ Finset.Ico 1 (2 ^ 53) := by
    intro id hid
    obtain ⟨row, hrow, rfl⟩ := List.mem_map.mp (List.mem_toFinset.mp hid)
    have hmem := Tables.mem_enquiries_of_mem_joined (Tables.mem_matching.mp hrow).1
    exact Finset.mem_Ico.mpr ⟨db.ids_positive _ hmem, db.ids_bounded _ hmem⟩
  have hcard := Finset.card_le_card hsub
  rw [List.toFinset_card_of_nodup hnodup, List.length_map, Nat.card_Ico] at hcard
  omega

theorem listEnquiries_pages (P : Platform) (db : Tables) (params : ListEnquiriesParams)
    (hlimit : 1 ≤ params.limit ∧ params.limit ≤ 100) (hcursor : params.cursor = none)
    (hoffset : offset params.page params.limit < 2 ^ 64) :
    ∃ data total, listEnquiries P db params = .ok ⟨data, .pages params.page params.limit total
        (total ⌈/⌉ params.limit)⟩ ∧
      data = ((db.matching params.status).drop (offset params.page params.limit)).take
        params.limit ∧
      total = if data = [] then 0 else (db.matching params.status).length := by
  obtain ⟨data, total, hlist, hdata, htotal⟩ :=
    listEnquiriesBy_pages offset P db params hlimit.2 hcursor hoffset
  have hbound : total < 2 ^ 53 := by
    rw [htotal]
    split_ifs
    · decide
    · exact db.length_matching_lt params.status
  rw [ceilQuotient_eq hbound (by omega) (by omega)] at hlist
  exact ⟨data, total, hlist, hdata, htotal⟩

/-- An offset beyond 64 bits is refused. -/
theorem listEnquiries_overflow (P : Platform) (db : Tables) (params : ListEnquiriesParams)
    (hcursor : params.cursor = none) (hoffset : 2 ^ 64 ≤ offset params.page params.limit) :
    listEnquiries P db params = sqlError P 1064 "ER_PARSE_ERROR" := by
  have hrange : (some (offset params.page params.limit)).any
      (fun n => decide (2 ^ 64 ≤ n)) = true := decide_eq_true hoffset
  have hpage : db.selectPage P ⟨params.status, none, params.limit,
      some (offset params.page params.limit)⟩ = sqlError P 1064 "ER_PARSE_ERROR" :=
    if_pos (Or.inr hrange)
  simp only [listEnquiries, listEnquiriesBy, hcursor, Option.filter_none, hpage]
  rfl

section Cursor

/-- Lists with a cursor, and again with each `nextCursor` until it is `null`. Call `k` reads
the tables as they are then; `none` if the calls run out or one of them fails. -/
def followCursor (P : Platform) (tables : ℕ → Tables) (params : ListEnquiriesParams) :
    ℕ → ℕ → ℕ → Option (List ListedEnquiry)
  | 0, _, _ => none
  | calls + 1, k, cursor =>
    match listEnquiries P (tables k) { params with cursor := some cursor } with
    | .ok ⟨data, .cursor (some next) _⟩ =>
      (followCursor P tables params calls (k + 1) next).map fun rest => data ++ rest
    | .ok ⟨data, _⟩ => some data
    | .error _ => none

variable {tables : ℕ → Tables} {data : List ListedEnquiry}

theorem followCursor_eq_walk (P : Platform) (tables : ℕ → Tables) (hlimit : params.limit ≤ 100)
    (calls k : ℕ) {cursor : ℕ} (hcursor : 0 < cursor) :
    followCursor P tables params calls k cursor =
      walk (fun row : ListedEnquiry => row.id) (fun k => (tables k).matching params.status)
        params.limit calls k cursor := by
  induction calls generalizing k cursor with
  | zero => rfl
  | succ calls ih =>
    obtain ⟨data, hlist, hdata⟩ := listEnquiries_cursor P (tables k)
      { params with cursor := some cursor } hlimit rfl hcursor
    simp only [followCursor, hlist, walk, ← hdata]
    cases hlast : data.getLast? with
    | none => rw [List.getLast?_eq_none_iff.mp hlast]; rfl
    | some row =>
      have hrow : row ∈ (tables k).joined := by
        have hmem := List.mem_of_getLast? hlast
        rw [hdata] at hmem
        exact (Tables.mem_matching.mp (mem_below.mp (List.mem_of_mem_take hmem)).1).1
      have hpos := (tables k).ids_positive _ (Tables.mem_enquiries_of_mem_joined hrow)
      simp only [Option.map_some]
      rw [ih (k + 1) hpos]

/-- What came between two calls: enquiries with larger ids than those that were there. -/
structure Inserted (db db' : Tables) : Prop where
  kept : ∀ row ∈ db.enquiries, row ∈ db'.enquiries
  above : ∀ row ∈ db'.enquiries, row ∉ db.enquiries → ∀ old ∈ db.enquiries, old.id < row.id

/-- The rows that match and have an id below the bound, in the table's own order. -/
def matchingBelow (db : Tables) (status : Option EnquiryStatus) (bound : ℕ) : List EnquiryRecord :=
  db.enquiries.filter fun row => hasStatus status row && decide (row.id < bound)

/-- The records below the bound are those of the table, sorted. -/
theorem below_matching_records (db : Tables) (status : Option EnquiryStatus) (bound : ℕ) :
    (below (fun row : ListedEnquiry => row.id) bound (db.matching status)).map
        ListedEnquiry.toEnquiryRecord =
      sortDesc EnquiryRecord.id (matchingBelow db status bound) := by
  have hdesc : Descending EnquiryRecord.id
      ((below (fun row : ListedEnquiry => row.id) bound (db.matching status)).map
        ListedEnquiry.toEnquiryRecord) :=
    List.pairwise_map.mpr ((db.matching_descending status).filter _)
  refine hdesc.ext
    (descending_sortDesc (db.ids_unique.sublist (List.filter_sublist.map _))) fun row => ?_
  · rw [mem_sortDesc, matchingBelow, List.mem_filter, Bool.and_eq_true, ← and_assoc,
      ← Tables.mem_matching_records, List.mem_map, List.mem_map]
    constructor
    · rintro ⟨listed, hlisted, rfl⟩
      obtain ⟨hmem, hlt⟩ := mem_below.mp hlisted
      exact ⟨⟨listed, hmem, rfl⟩, decide_eq_true hlt⟩
    · rintro ⟨⟨listed, hmem, rfl⟩, hlt⟩
      exact ⟨listed, mem_below.mpr ⟨hmem, of_decide_eq_true hlt⟩, rfl⟩

theorem length_below_matching (db : Tables) (status : Option EnquiryStatus) (bound : ℕ) :
    (below (fun row : ListedEnquiry => row.id) bound (db.matching status)).length =
      (matchingBelow db status bound).length := by
  rw [← List.length_map (f := ListedEnquiry.toEnquiryRecord), below_matching_records,
    length_sortDesc]

/-- Below a row that is there, insertions change nothing. -/
theorem Inserted.below_eq (h : Inserted db db') {x : ListedEnquiry} (hx : x ∈ db.matching status) :
    (below (fun row : ListedEnquiry => row.id) x.id (db'.matching status)).length =
      (below (fun row : ListedEnquiry => row.id) x.id (db.matching status)).length := by
  have hrow := Tables.mem_enquiries_of_mem_joined (Tables.mem_matching.mp hx).1
  have hsame : sortDesc EnquiryRecord.id (matchingBelow db' status x.id) =
      sortDesc EnquiryRecord.id (matchingBelow db status x.id) := by
    refine Descending.ext (descending_sortDesc (db'.ids_unique.sublist (List.filter_sublist.map _)))
      (descending_sortDesc (db.ids_unique.sublist (List.filter_sublist.map _))) fun row => ?_
    simp only [mem_sortDesc, matchingBelow, List.mem_filter, Bool.and_eq_true, decide_eq_true_eq]
    refine and_congr_left fun hmatches => ⟨fun hmem => ?_, h.kept row⟩
    by_contra hnew
    exact absurd hmatches.2 (h.above row hmem hnew _ hrow).not_gt
  rw [length_below_matching, length_below_matching, ← length_sortDesc EnquiryRecord.id,
    hsame, length_sortDesc]

/-- Following the cursor ends; what it lists is in strictly descending order, with every
matching enquiry that was there at each call listed once; and when enquiries are only
inserted, the `n` below the first cursor take at most `n / limit + 2` calls. -/
theorem followCursor_complete (tables : ℕ → Tables) (hparams : params.Accepted) {cursor : ℕ}
    (hcursor : 0 < cursor) :
    (∃ calls data, followCursor P tables params calls 0 cursor = some data) ∧
    (∀ calls data, followCursor P tables params calls 0 cursor = some data →
      (data.map fun row => row.id).Pairwise (fun id id' => id' < id) ∧
      ∀ id < cursor, (∀ k < calls, ∃ row ∈ (tables k).enquiries,
          row.id = id ∧ hasStatus params.status row = true) →
        (data.map fun row => row.id).count id = 1) ∧
    ((∀ k, Inserted (tables k) (tables (k + 1))) → ∃ data, followCursor P tables params
      ((matchingBelow (tables 0) params.status cursor).length / params.limit + 2) 0 cursor =
        some data) := by
  obtain ⟨hpos, hmax⟩ := hparams.limit
  have hwalk := fun calls => followCursor_eq_walk P tables hmax calls 0 hcursor
  have hrows : ∀ k, Descending (fun row : ListedEnquiry => row.id)
      ((tables k).matching params.status) := fun k => (tables k).matching_descending _
  refine ⟨⟨cursor + 1, ?_⟩, fun calls data hdata => ?_, fun hgrow => ?_⟩
  · rw [hwalk]
    exact walk_ends (Nat.lt_succ_self cursor)
  · rw [hwalk] at hdata
    have hdesc := (walk_descending hrows hdata).1
    refine ⟨List.pairwise_map.mpr hdesc, fun id hid hpresent => hdesc.count_eq_one ?_⟩
    refine walk_complete hpos hrows (fun k _ hk => ?_) hid hdata
    obtain ⟨row, hrow, hkey, hstatus⟩ := hpresent k (by omega)
    obtain ⟨listed, hlisted, rfl⟩ :=
      List.mem_map.mp (Tables.mem_matching_records.mpr ⟨hrow, hstatus⟩)
    exact ⟨listed, hlisted, hkey⟩
  · rw [hwalk]
    refine walk_calls hpos hrows (fun k x hx => (hgrow k).below_eq hx) ?_
    rw [length_below_matching]
    set n := (matchingBelow (tables 0) params.status cursor).length
    have hceil : (n + params.limit - 1) / params.limit ≤ n / params.limit + 1 := by
      rw [← Nat.add_div_right n hpos]
      exact Nat.div_le_div_right (Nat.sub_le _ 1)
    omega

/-- An enquiry of a sample table; those with even ids have been contacted. -/
def sampleListed (id : ℕ) : EnquiryRecord where
  propertyId := 1
  fullName := "Jane Doe"
  email := "jane@example.com"
  phone := none
  message := "Please call me."
  source := .website
  fingerprint := natToString id
  ipAddress := none
  userAgent := none
  id := id
  status := if id % 2 = 0 then .contacted else .new
  crmRecordId := none
  crmSyncedAt := none
  createdAt := 0
  updatedAt := 0

theorem map_id_sampleListed (ids : List ℕ) : (ids.map sampleListed).map EnquiryRecord.id = ids := by
  rw [List.map_map]
  exact List.map_id ids

def sampleTables (ids : List ℕ) (hunique : ids.Nodup)
    (hrange : ∀ id ∈ ids, 0 < id ∧ id < 2 ^ 53) : Tables where
  enquiries := ids.map sampleListed
  properties id := if id = 1 then some "Sea view" else none
  ids_unique := by rwa [map_id_sampleListed]
  ids_positive row hrow := by
    obtain ⟨id, hid, rfl⟩ := List.mem_map.mp hrow
    exact (hrange id hid).1
  ids_bounded row hrow := by
    obtain ⟨id, hid, rfl⟩ := List.mem_map.mp hrow
    exact (hrange id hid).2
  fk_enquiries_property row hrow := by
    obtain ⟨id, hid, rfl⟩ := List.mem_map.mp hrow
    rfl

/-- Enquiry 6 comes after the first call. -/
def growingTables : ℕ → Tables
  | 0 => sampleTables [3, 1, 5, 2, 4] (by decide) (by decide)
  | _ + 1 => sampleTables [3, 1, 5, 2, 4, 6] (by decide) (by decide)

theorem inserted_growingTables (k : ℕ) : Inserted (growingTables k) (growingTables (k + 1)) := by
  cases k with
  | zero => exact ⟨by decide, by decide⟩
  | succ k => exact ⟨fun row hrow => hrow, fun row hrow hnew => absurd hrow hnew⟩

def sampleParams : ListEnquiriesParams := ⟨1, 2, some .new, none⟩

theorem accepted_sampleParams : sampleParams.Accepted :=
  ⟨by decide, ⟨by decide, by decide⟩, fun c hc => by cases hc⟩

theorem followCursor_complete_sample : ∃ data,
    followCursor .sample growingTables sampleParams
      ((matchingBelow (growingTables 0) (some .new) 100).length / 2 + 2) 0 100 = some data :=
  (followCursor_complete growingTables accepted_sampleParams (by decide)).2.2 inserted_growingTables

example : (followCursor .sample growingTables sampleParams 3 0 100).map (·.map (·.id)) =
    some [5, 3, 1] := by decide

end Cursor

section Pages

theorem mapM_ok {α β ε : Type} {f : α → Except ε β} {g : α → β} {l : List α}
    (h : ∀ x ∈ l, f x = .ok (g x)) : l.mapM f = .ok (l.map g) := by
  induction l with
  | nil => rfl
  | cons x l ih =>
    rw [List.mapM_cons, h x List.mem_cons_self, ih fun y hy => h y (List.mem_cons_of_mem _ hy)]
    rfl

/-- A page by offset is the page below the last id of the page before it. -/
theorem page_eq_cursor_page (hparams : params.Accepted) {k : ℕ} (hk : 2 ≤ k)
    (hoffset : (k - 1) * params.limit < 2 ^ 53) {previous : ListEnquiriesResult}
    (hprevious : listEnquiries P db { params with page := k - 1, cursor := none } = .ok previous)
    {last : ListedEnquiry} (hlast : previous.data.getLast? = some last) :
    ∃ byOffset byCursor,
      listEnquiries P db { params with page := k, cursor := none } = .ok byOffset ∧
      listEnquiries P db { params with cursor := some last.id } = .ok byCursor ∧
      byOffset.data = byCursor.data := by
  obtain ⟨hpos, hmax⟩ := hparams.limit
  have hbefore : (k - 1 - 1) * params.limit ≤ (k - 1) * params.limit :=
    Nat.mul_le_mul_right _ (Nat.sub_le _ 1)
  have hoffset₁ : offset (k - 1) params.limit = (k - 1 - 1) * params.limit :=
    offset_eq hpos (hbefore.trans_lt hoffset)
  have hoffset₂ : offset k params.limit = (k - 1) * params.limit := offset_eq hpos hoffset
  obtain ⟨data₁, total₁, hlist₁, hdata₁, -⟩ := listEnquiries_pages P db
    { params with page := k - 1, cursor := none } hparams.limit rfl
    (show offset (k - 1) params.limit < 2 ^ 64 by omega)
  cases hprevious.symm.trans hlist₁
  obtain ⟨data₂, total₂, hlist₂, hdata₂, -⟩ := listEnquiries_pages P db
    { params with page := k, cursor := none } hparams.limit rfl
    (show offset k params.limit < 2 ^ 64 by omega)
  change data₁ = ((db.matching params.status).drop (offset (k - 1) params.limit)).take _ at hdata₁
  change data₂ = ((db.matching params.status).drop (offset k params.limit)).take _ at hdata₂
  rw [hoffset₁] at hdata₁
  rw [hoffset₂] at hdata₂
  have hid : 0 < last.id := by
    have hmem := List.mem_of_getLast? hlast
    rw [hdata₁] at hmem
    exact db.ids_positive _ (Tables.mem_enquiries_of_mem_joined
      (Tables.mem_matching.mp (List.mem_of_mem_drop (List.mem_of_mem_take hmem))).1)
  obtain ⟨data₃, hlist₃, hdata₃⟩ := listEnquiries_cursor P db
    { params with cursor := some last.id } hmax rfl hid
  refine ⟨_, _, hlist₂, hlist₃, ?_⟩
  have hnext : (k - 1 - 1) * params.limit + params.limit = (k - 1) * params.limit := by
    rw [← Nat.succ_mul]
    congr 1
    omega
  rw [hdata₁] at hlast
  rw [hdata₂, hdata₃, below_last (db.matching_descending params.status) hlast, hnext]

/-- The pages of the first page's count, one after another, are all that matches. -/
theorem pages_cover (P : Platform) (db : Tables) (hparams : params.Accepted) :
    ∃ data total totalPages pages,
      listEnquiries P db { params with page := 1, cursor := none } =
        .ok ⟨data, .pages 1 params.limit total totalPages⟩ ∧
      (List.range totalPages).mapM (fun k =>
        listEnquiries P db { params with page := k + 1, cursor := none }) = .ok pages ∧
      pages.flatMap ListEnquiriesResult.data = db.matching params.status := by
  obtain ⟨hpos, hmax⟩ := hparams.limit
  set n := (db.matching params.status).length with hn
  have hbound := db.length_matching_lt params.status
  have hfirst : offset 1 params.limit = 0 := by
    rw [offset_eq hpos (by simp), Nat.sub_self, Nat.zero_mul]
  obtain ⟨data, total, hlist, hdata, htotal⟩ := listEnquiries_pages P db
    { params with page := 1, cursor := none } hparams.limit rfl
    (show offset 1 params.limit < 2 ^ 64 by omega)
  change data = ((db.matching params.status).drop (offset 1 params.limit)).take _ at hdata
  rw [hfirst] at hdata
  rw [Nat.ceilDiv_eq_add_pred_div] at hlist
  have htotal : total = n := by
    rw [htotal]
    split_ifs with hempty
    · have hzero : db.matching params.status = [] := by
        rw [hdata] at hempty
        have hlimit : params.limit ≠ 0 := (Nat.lt_of_lt_of_le Nat.zero_lt_one hpos).ne'
        simpa [hlimit] using hempty
      rw [hn, hzero]
      rfl
    · rfl
  -- The offset of every page counted lies before the end.
  have hpage : ∀ k ∈ List.range ((total + params.limit - 1) / params.limit), ∃ result,
      listEnquiries P db { params with page := k + 1, cursor := none } = .ok result ∧
      result.data = ((db.matching params.status).drop (k * params.limit)).take params.limit := by
    intro k hk
    have hlt : k * params.limit < n := by
      have hk := (Nat.le_div_iff_mul_le hpos).mp (Nat.succ_le_of_lt (List.mem_range.mp hk))
      rw [Nat.succ_mul] at hk
      omega
    have hoffset : offset (k + 1) params.limit = k * params.limit :=
      offset_eq hpos (show k * params.limit < 2 ^ 53 by omega)
    obtain ⟨data, total, hlist, hdata, -⟩ := listEnquiries_pages P db
      { params with page := k + 1, cursor := none } hparams.limit rfl
      (show offset (k + 1) params.limit < 2 ^ 64 by omega)
    change data = ((db.matching params.status).drop (offset (k + 1) params.limit)).take _ at hdata
    rw [hoffset] at hdata
    exact ⟨_, hlist, hdata⟩
  have : Nonempty ListEnquiriesResult := ⟨⟨data, .cursor none params.limit⟩⟩
  choose! result hresult hslice using hpage
  refine ⟨data, total, _, _, hlist, mapM_ok hresult, ?_⟩
  rw [List.flatMap_map]
  calc (List.range ((total + params.limit - 1) / params.limit)).flatMap (fun k => (result k).data)
      = (List.range ((total + params.limit - 1) / params.limit)).flatMap fun k =>
          ((db.matching params.status).drop (k * params.limit)).take params.limit :=
        List.flatMap_congr hslice
    _ = (db.matching params.status).take
          ((total + params.limit - 1) / params.limit * params.limit) := flatMap_pages _ _ _
    _ = db.matching params.status := by
        refine List.take_of_length_le ?_
        have hdiv := Nat.div_add_mod (total + params.limit - 1) params.limit
        have hmod := Nat.mod_lt (total + params.limit - 1) hpos
        rw [Nat.mul_comm] at hdiv
        omega

/-- Offset and cursor select the same pages, and the pages together are all enquiries that
match, each once, with the newest first. -/
theorem pagination_agrees (db : Tables) (hparams : params.Accepted) :
    (∀ k, 2 ≤ k → (k - 1) * params.limit < 2 ^ 53 → ∀ previous last,
      listEnquiries P db { params with page := k - 1, cursor := none } = .ok previous →
      previous.data.getLast? = some last → ∃ byOffset byCursor,
        listEnquiries P db { params with page := k, cursor := none } = .ok byOffset ∧
        listEnquiries P db { params with cursor := some last.id } = .ok byCursor ∧
        byOffset.data = byCursor.data) ∧
    ∃ data total totalPages pages,
      listEnquiries P db { params with page := 1, cursor := none } =
        .ok ⟨data, .pages 1 params.limit total totalPages⟩ ∧
      (List.range totalPages).mapM (fun k =>
        listEnquiries P db { params with page := k + 1, cursor := none }) = .ok pages ∧
      ((pages.flatMap ListEnquiriesResult.data).map fun row => row.id).Pairwise
        (fun id id' => id' < id) ∧
      ∀ row, row ∈ (pages.flatMap ListEnquiriesResult.data).map ListedEnquiry.toEnquiryRecord ↔
        row ∈ db.enquiries ∧ hasStatus params.status row = true := by
  constructor
  · intro k hk hoffset previous last hprevious hlast
    exact page_eq_cursor_page hparams hk hoffset hprevious hlast
  · obtain ⟨data, total, totalPages, pages, hlist, hpages, hall⟩ :=
      pages_cover P db hparams
    refine ⟨data, total, totalPages, pages, hlist, hpages, ?_, fun row => ?_⟩
    · rw [hall]
      exact List.pairwise_map.mpr (db.matching_descending params.status)
    · rw [hall]
      exact Tables.mem_matching_records

theorem pagination_agrees_sample : ∃ data total totalPages pages,
    listEnquiries .sample (growingTables 0) { sampleParams with page := 1, cursor := none } =
      .ok ⟨data, .pages 1 2 total totalPages⟩ ∧
    (List.range totalPages).mapM (fun k => listEnquiries .sample (growingTables 0)
      { sampleParams with page := k + 1, cursor := none }) = .ok pages ∧
    ((pages.flatMap ListEnquiriesResult.data).map fun row => row.id).Pairwise
      (fun id id' => id' < id) ∧
    ∀ row, row ∈ (pages.flatMap ListEnquiriesResult.data).map ListedEnquiry.toEnquiryRecord ↔
      row ∈ (growingTables 0).enquiries ∧ hasStatus (some .new) row = true :=
  (pagination_agrees (growingTables 0) accepted_sampleParams).2

end Pages

section Totals

/-- The number of enquiries with the status. -/
def countMatching (db : Tables) (status : Option EnquiryStatus) : ℕ :=
  db.enquiries.countP (hasStatus status)

theorem length_matching (db : Tables) (status : Option EnquiryStatus) :
    (db.matching status).length = countMatching db status := by
  rw [Tables.matching, length_sortDesc, ← List.countP_eq_length_filter, countMatching,
    ← db.joined_records, List.countP_map]
  rfl

/-- The page comes with the number of all enquiries that match, and of their pages. -/
def TotalsRight (P : Platform) (db : Tables) (params : ListEnquiriesParams) : Prop :=
  ∃ data, listEnquiries P db params =
    .ok ⟨data, .pages params.page params.limit (countMatching db params.status)
      (countMatching db params.status ⌈/⌉ params.limit)⟩

/-- The count travels on the rows of the page, so it is lost on a page without rows. -/
theorem totalsRight_iff (hparams : params.Accepted) (hcursor : params.cursor = none) :
    TotalsRight P db params ↔
      offset params.page params.limit < countMatching db params.status ∨
        (countMatching db params.status = 0 ∧ offset params.page params.limit < 2 ^ 64) := by
  obtain ⟨hpos, hmax⟩ := hparams.limit
  have hbound := db.length_matching_lt params.status
  rw [length_matching] at hbound
  by_cases hoffset : offset params.page params.limit < 2 ^ 64
  · obtain ⟨data, total, hlist, hdata, htotal⟩ :=
      listEnquiries_pages P db params hparams.limit hcursor hoffset
    have hempty : data = [] ↔
        countMatching db params.status ≤ offset params.page params.limit := by
      rw [hdata, ← length_matching, List.take_eq_nil_iff, List.drop_eq_nil_iff]
      exact or_iff_right (by omega)
    rw [length_matching] at htotal
    have hright : TotalsRight P db params ↔ total = countMatching db params.status := by
      constructor
      · rintro ⟨data', hresult⟩
        rw [hlist] at hresult
        simp only [Except.ok.injEq, ListEnquiriesResult.mk.injEq, Pagination.pages.injEq] at hresult
        exact hresult.2.2.2.1
      · intro heq
        exact ⟨data, by rw [hlist, heq]⟩
    rw [hright, htotal]
    split_ifs with hnil
    · have hle := hempty.mp hnil
      constructor
      · exact fun hzero => Or.inr ⟨hzero.symm, hoffset⟩
      · rintro (hlt | ⟨hzero, -⟩)
        · exact absurd hle (not_le.mpr hlt)
        · exact hzero.symm
    · exact iff_of_true rfl (Or.inl (not_le.mp fun hle => hnil (hempty.mpr hle)))
  · refine iff_of_false ?_ (by omega)
    rintro ⟨data, hlist⟩
    rw [listEnquiries_overflow P db params hcursor (not_lt.mp hoffset)] at hlist
    cases hlist

/-- The second of two pages, which has one row. -/
theorem totalsRight_sample :
    TotalsRight .sample (growingTables 0) { sampleParams with page := 2 } := by
  have haccepted : ({ sampleParams with page := 2 } : ListEnquiriesParams).Accepted :=
    ⟨by decide, accepted_sampleParams.limit, accepted_sampleParams.cursor⟩
  exact (totalsRight_iff haccepted rfl).mpr (Or.inl (by decide))

/-- After the last page there seems to be nothing at all. -/
theorem not_totalsRight : ¬ ∀ (P : Platform) (db : Tables) (params : ListEnquiriesParams),
    params.Accepted → params.cursor = none → TotalsRight P db params := by
  intro hclaim
  obtain ⟨data, hlist⟩ := hclaim .sample (growingTables 0) { sampleParams with page := 3 }
    ⟨by decide, accepted_sampleParams.limit, accepted_sampleParams.cursor⟩ rfl
  have hpast : (listEnquiries .sample (growingTables 0)
      { sampleParams with page := 3 }).toOption.map ListEnquiriesResult.pagination =
        some (.pages 3 2 0 0) := by decide
  rw [hlist] at hpast
  simp only [Except.toOption, Option.map_some, Option.some.injEq, Pagination.pages.injEq] at hpast
  exact absurd hpast.2.2.1 (by decide)

end Totals

end PropertyPlatform
