import PropertyPlatform.Async.Program
import PropertyPlatform.Errors
import PropertyPlatform.Js.Double

/-!
# What the property cache awaits

Pages of the CMS travel to Redis in envelopes. The version of a page is not in the
source: it tells one state of the CMS content from the next. A fetch is two requests,
sending the query and awaiting its response, and `dateNow`, `query`, `detach` and
`detached` are not awaited by the source; they are requests here so that they have a
place in a history, and they are never rejected.
-/

namespace PropertyPlatform.Cache

open Js

/-- A JavaScript number of seconds. `negInfinity` also stands for `NaN`: no age is below it. -/
inductive Seconds where
  | finite (x : Double)
  | infinity
  | negInfinity
  deriving DecidableEq

namespace Seconds

/-- The number nearest to `a / b`. -/
def ofDiv (a : ℤ) (b : ℕ) : Seconds :=
  match Double.ofDiv? a b with
  | some x => .finite x
  | none => if a < 0 then .negInfinity else .infinity

def ofInt (n : ℤ) : Seconds := ofDiv n 1

def ofNat (n : ℕ) : Seconds := ofInt n

def add : Seconds → Seconds → Seconds
  | .negInfinity, _ => .negInfinity
  | _, .negInfinity => .negInfinity
  | .infinity, _ => .infinity
  | _, .infinity => .infinity
  | .finite x, .finite y => ofDiv (x.num * y.den + y.num * x.den) (x.den * y.den)

/-- Whether an age in milliseconds, divided by 1000, is below this many seconds. -/
def exceeds : Seconds → ℤ → Bool
  | .finite x, ms => x.exceedsDiv ms 1000
  | .infinity, _ => true
  | .negInfinity, _ => false

/-- Whether an age in milliseconds is below the sum of two durations. Nothing is rounded here. -/
def sumExceeds : Seconds → Seconds → ℤ → Bool
  | .negInfinity, _, _ => false
  | _, .negInfinity, _ => false
  | .infinity, _, _ => true
  | _, .infinity, _ => true
  | .finite x, .finite y, ms =>
    decide (ms * (x.den * y.den) < 1000 * (x.num * y.den + y.num * x.den))

/-- Negative, or not a number. -/
def isNegative : Seconds → Bool
  | .finite x => decide (x.num < 0)
  | .infinity => false
  | .negInfinity => true

variable {s s' : Seconds} {x y : Double} {a ms ms' : ℤ} {b n : ℕ}

theorem finite_exceeds : (finite x).exceeds ms = true ↔ nearestDiv ms 1000 < x.value :=
  Double.exceedsDiv_iff

theorem exceeds_of_le (h : s.exceeds ms = true) (hle : ms' ≤ ms) : s.exceeds ms' = true := by
  cases s with
  | finite x =>
    have hquotient : (ms' : ℚ) / (1000 : ℕ) ≤ (ms : ℚ) / (1000 : ℕ) := by gcongr
    rw [finite_exceeds] at h ⊢
    exact (nearestDiv_mono (by decide) (by decide) hquotient).trans_lt h
  | infinity => rfl
  | negInfinity => cases h

/-- Rounding a quotient that is no smaller than the number keeps what the number exceeds. -/
theorem ofDiv_exceeds (hb : 0 < b) (hle : x.value ≤ nearestDiv a b)
    (h : (finite x).exceeds ms = true) : (ofDiv a b).exceeds ms = true := by
  unfold ofDiv
  cases hdiv : Double.ofDiv? a b with
  | some y =>
    simp only
    rw [finite_exceeds] at h ⊢
    rw [Double.value_of_ofDiv? hdiv]
    exact h.trans_le hle
  | none =>
    simp only
    split_ifs with hneg
    · -- The number would lie below all finite ones.
      have hlarge := Double.le_abs_of_ofDiv?_eq_none hb hdiv
      have hfinite := (abs_lt.mp x.abs_value_lt).1
      have hnegative := nearestDiv_nonneg (a := -a) (b := b) (by omega)
      rw [nearestDiv_neg] at hnegative
      rw [abs_of_nonpos (by linarith)] at hlarge
      linarith
    · rfl

/-- Nor does it exceed more where the quotient is no larger. -/
theorem exceeds_of_ofDiv (hb : 0 < b) (hle : nearestDiv a b ≤ x.value)
    (h : (ofDiv a b).exceeds ms = true) : (finite x).exceeds ms = true := by
  unfold ofDiv at h
  cases hdiv : Double.ofDiv? a b with
  | some y =>
    rw [hdiv] at h
    simp only at h
    rw [finite_exceeds] at h ⊢
    rw [Double.value_of_ofDiv? hdiv] at h
    exact h.trans_le hle
  | none =>
    rw [hdiv] at h
    simp only at h
    split_ifs at h with hneg
    · cases h
    · have hlarge := Double.le_abs_of_ofDiv?_eq_none hb hdiv
      have hfinite := (abs_lt.mp x.abs_value_lt).2
      rw [abs_of_nonneg (nearestDiv_nonneg (by omega))] at hlarge
      linarith

theorem sum_eq (x y : Double) : ((x.num * y.den + y.num * x.den : ℤ) : ℚ) / (x.den * y.den : ℕ) =
    x.value + y.value := by
  have hx : (x.den : ℚ) ≠ 0 := by exact_mod_cast x.den_pos.ne'
  have hy : (y.den : ℚ) ≠ 0 := by exact_mod_cast y.den_pos.ne'
  rw [x.value_eq, y.value_eq]
  push_cast
  field_simp

theorem finite_sumExceeds :
    (finite x).sumExceeds (finite y) ms = true ↔ (ms : ℚ) < 1000 * (x.value + y.value) := by
  have hpos : (0 : ℚ) < (x.den * y.den : ℕ) := by
    exact_mod_cast Nat.mul_pos x.den_pos y.den_pos
  rw [sumExceeds, decide_eq_true_eq, ← sum_eq, ← mul_div_assoc, lt_div_iff₀ hpos]
  exact_mod_cast Iff.rfl

theorem sumExceeds_of_le (h : s.sumExceeds s' ms = true) (hle : ms' ≤ ms) :
    s.sumExceeds s' ms' = true := by
  cases s with
  | negInfinity => cases h
  | infinity => cases s' <;> first | rfl | cases h
  | finite x =>
    cases s' with
    | negInfinity => cases h
    | infinity => rfl
    | finite y =>
      have hcast : (ms' : ℚ) ≤ ms := by exact_mod_cast hle
      rw [finite_sumExceeds] at h ⊢
      exact hcast.trans_lt h

theorem exceeds_add (h : s.exceeds ms = true) (hs' : s'.isNegative = false) :
    (s.add s').exceeds ms = true := by
  cases s with
  | negInfinity => cases h
  | infinity =>
    cases s' with
    | negInfinity => cases hs'
    | _ => rfl
  | finite x =>
    cases s' with
    | negInfinity => cases hs'
    | infinity => rfl
    | finite y =>
      have hnonneg : 0 ≤ y.num := by simpa [isNegative] using hs'
      have hsum : (x.num : ℚ) / x.den ≤
          ((x.num * y.den + y.num * x.den : ℤ) : ℚ) / (x.den * y.den : ℕ) := by
        have hy : 0 ≤ y.value := by
          rw [y.value_eq]
          positivity
        rw [sum_eq, ← x.value_eq]
        linarith
      have hpos : 0 < x.den * y.den := Nat.mul_pos x.den_pos y.den_pos
      apply ofDiv_exceeds hpos _ h
      rw [← Double.nearestDiv_num_den]
      exact nearestDiv_mono x.den_pos hpos hsum

theorem exceeds_of_add (h : (s.add s').exceeds ms = true) (hs' : s'.isNegative = true) :
    s.exceeds ms = true := by
  cases s' with
  | infinity => cases hs'
  | negInfinity => cases s <;> cases h
  | finite y =>
    cases s with
    | negInfinity => cases h
    | infinity => rfl
    | finite x =>
      have hneg : y.num < 0 := by simpa [isNegative] using hs'
      have hsum : ((x.num * y.den + y.num * x.den : ℤ) : ℚ) / (x.den * y.den : ℕ) ≤
          (x.num : ℚ) / x.den := by
        have hy : y.value ≤ 0 := by
          rw [y.value_eq]
          exact div_nonpos_of_nonpos_of_nonneg (by exact_mod_cast hneg.le) (by positivity)
        rw [sum_eq, ← x.value_eq]
        linarith
      have hpos : 0 < x.den * y.den := Nat.mul_pos x.den_pos y.den_pos
      apply exceeds_of_ofDiv hpos _ h
      rw [← Double.nearestDiv_num_den]
      exact nearestDiv_mono hpos x.den_pos hsum

section Whole

/-- `m / 1024` as a number. -/
def fraction (m : ℤ) (hm : m.natAbs < 2 ^ 53) : Double := ⟨m, -10, hm, by decide, by decide⟩

theorem value_fraction {m : ℤ} (hm : m.natAbs < 2 ^ 53) : (fraction m hm).value = m / 1024 := by
  rw [Double.value, fraction, zpow_neg, div_eq_mul_inv]
  norm_num

/-- An age below a whole number of seconds is not rounded up to it. -/
theorem exceeds_whole (hn : n ≤ 2 ^ 42) (hx : x.value = n) :
    (finite x).exceeds ms = true ↔ ms < 1000 * n := by
  rw [finite_exceeds]
  constructor
  · intro h
    by_contra hle
    have hquotient : (x.num : ℚ) / x.den ≤ (ms : ℚ) / (1000 : ℕ) := by
      have hcast : (1000 * n : ℚ) ≤ ms := by exact_mod_cast not_lt.mp hle
      rw [← x.value_eq, hx, le_div_iff₀ (by norm_num)]
      push_cast
      linarith
    have hround := nearestDiv_mono x.den_pos (by decide) hquotient
    rw [Double.nearestDiv_num_den] at hround
    exact absurd h (not_lt.mpr hround)
  · intro h
    -- The number with the fraction 1023 / 1024 lies between.
    have hm : (1024 * (n : ℤ) - 1).natAbs < 2 ^ 53 := by omega
    have hvalue : (fraction _ hm).value = n - 1 / 1024 := by
      rw [value_fraction]
      push_cast
      ring
    have hquotient : (ms : ℚ) / (1000 : ℕ) ≤
        ((fraction _ hm).num : ℚ) / (fraction _ hm).den := by
      have hcast : (ms : ℚ) ≤ 1000 * n - 1 := by exact_mod_cast Int.le_sub_one_of_lt h
      rw [← Double.value_eq, hvalue, div_le_iff₀ (by norm_num)]
      push_cast
      linarith
    have hround := nearestDiv_mono (by decide) (fraction _ hm).den_pos hquotient
    rw [Double.nearestDiv_num_den, hvalue] at hround
    rw [hx]
    linarith

theorem exists_ofNat (hn : n ≤ 2 ^ 42) : ∃ x, ofNat n = finite x ∧ x.value = n := by
  have hm : (1024 * (n : ℤ)).natAbs < 2 ^ 53 := by omega
  have hvalue : ((n : ℤ) : ℚ) / (1 : ℕ) = (fraction _ hm).value := by
    rw [value_fraction]
    push_cast
    ring
  obtain ⟨x, hdiv, hx⟩ := Double.exists_ofDiv? Nat.one_pos hvalue
  refine ⟨x, ?_, ?_⟩
  · rw [ofNat, ofInt, ofDiv, hdiv]
  · rw [hx, ← hvalue]
    simp

/-- Between whole numbers of seconds nothing is lost to rounding. -/
theorem sumExceeds_ofNat {m : ℕ} (h : n + m ≤ 2 ^ 42) :
    ((ofNat n).sumExceeds (ofNat m) ms = true ↔ ms < 1000 * (n + m)) ∧
      (((ofNat n).add (ofNat m)).exceeds ms = true ↔ ms < 1000 * (n + m)) := by
  obtain ⟨x, hn, hx⟩ := exists_ofNat (n := n) (by omega)
  obtain ⟨y, hm, hy⟩ := exists_ofNat (n := m) (by omega)
  obtain ⟨z, -, hz⟩ := exists_ofNat h
  have hsum : ((x.num * y.den + y.num * x.den : ℤ) : ℚ) / (x.den * y.den : ℕ) = z.value := by
    rw [sum_eq, hx, hy, hz, Nat.cast_add]
  obtain ⟨z', hdiv, hz'⟩ := Double.exists_ofDiv? (Nat.mul_pos x.den_pos y.den_pos) hsum
  rw [hn, hm]
  constructor
  · rw [finite_sumExceeds, hx, hy]
    exact_mod_cast Iff.rfl
  · rw [add, ofDiv, hdiv]
    apply (exceeds_whole h (hz'.trans hz)).trans
    rw [Nat.cast_add]

end Whole

end Seconds

/-- The first argument of `fetchPublishedProperties`, `Math.min(Number(first) || 20, 50)`. -/
inductive PageSize where
  | number (x : Number)
  | negInfinity
  deriving DecidableEq

def PageSize.text : PageSize → String
  | .number x => String.ofList x.toText
  | .negInfinity => "-Infinity"

/-- The arguments of the two GraphQL queries. -/
inductive CmsQuery where
  | properties (first : PageSize) (after : Option String)
  | property (slug : String)
  deriving DecidableEq

def CmsQuery.cacheKey : CmsQuery → String
  | .properties first after => "wpcms:properties:" ++ first.text ++ ":" ++ after.getD "start"
  | .property slug => "wpcms:property:" ++ slug

/-- What the CMS answers: `data.posts`, or `data.post`, which is `null` for an unknown slug. -/
structure Page where
  version : ℕ
  body : Value

structure CacheEnvelope where
  data : Page
  cachedAt : ℕ

inductive Operation where
  | get (key : String)
  | set (key : String) (envelope : CacheEnvelope) (exSeconds : ℕ)
  | scan (cursor : ℕ) (pattern : String)
  | del (keys : List String)
  | dateNow
  | query (q : CmsQuery)
  | response (q : CmsQuery)
  | detach
  | detached

namespace Operation

abbrev Reply : Operation → Type
  | get _ => Option CacheEnvelope
  | scan _ _ => List String
  | dateNow => ℕ
  | response _ => Page
  | _ => Unit

def isRedis : Operation → Bool
  | get _ | set _ _ _ | scan _ _ | del _ => true
  | _ => false

/-- The operations a network or a server may fail. -/
def mayReject : Operation → Bool
  | get _ | set _ _ _ | scan _ _ | del _ | response _ => true
  | _ => false

/-- A command whose effect may outlive a lost acknowledgement. -/
def isWrite : Operation → Bool
  | set _ _ _ | del _ => true
  | _ => false

end Operation

abbrev signature : Async.Signature where
  Request := Operation
  Reply := Operation.Reply
  Err := Err

abbrev Promise (α : Type) := Async.Program signature α

abbrev History := Async.History signature

abbrev Event := Async.Event signature

abbrev call (q : Operation) : Promise q.Reply := Async.Program.perform (S := signature) q

end PropertyPlatform.Cache
