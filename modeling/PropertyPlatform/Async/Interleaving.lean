import PropertyPlatform.Async.History
import Mathlib.Logic.Relation

/-!
# Interleaved runs of many programs

Programs indexed by `ι` share a world. A step answers the request one of them
awaits, or lets the environment move. The choice passed to the server names the
nondeterminism of one answer (which fault strikes, what the clock says), so a
run is replayed from its list of moves.
-/

namespace Async

open Relation

variable {S : Signature} {ι World Choice Drift α : Type}

/-- How a shared world answers requests and moves by itself. `none` means that
the request has to wait, or that the environment move is not possible. -/
structure Server (S : Signature) (ι World Choice Drift : Type) where
  serve : ι → (q : S.Request) → Choice → World → Option (Except S.Err (S.Reply q) × World)
  drift : Drift → World → Option World

structure Config (S : Signature) (ι World α : Type) where
  world : World
  program : ι → Program S α
  trace : List (ι × Event S)

namespace Config

variable [DecidableEq ι]

def start (w : World) (programs : ι → Program S α) : Config S ι World α := ⟨w, programs, []⟩

/-- The history of one program within the trace of all. -/
def own (c : Config S ι World α) (i : ι) : History S :=
  c.trace.filterMap fun x => if x.1 = i then some x.2 else none

theorem mem_own {c : Config S ι World α} {i : ι} {e : Event S} :
    e ∈ c.own i ↔ (i, e) ∈ c.trace := by
  constructor
  · intro h
    obtain ⟨⟨j, e'⟩, hmem, heq⟩ := List.mem_filterMap.mp h
    split_ifs at heq with hj
    simp only at hj
    subst hj
    cases heq
    exact hmem
  · exact fun h => List.mem_filterMap.mpr ⟨(i, e), h, by simp⟩

/-- What only one program contributes to can be read off its own history. -/
theorem filterMap_trace {β : Type} {c : Config S ι World α} {i : ι} (f : Event S → Option β)
    (h : ∀ x ∈ c.trace, (f x.2).isSome = true → x.1 = i) :
    c.trace.filterMap (fun x => f x.2) = (c.own i).filterMap f := by
  unfold own
  rw [List.filterMap_filterMap]
  refine List.filterMap_congr fun x hx => ?_
  by_cases hi : x.1 = i
  · simp [hi]
  · cases hf : f x.2 with
    | none => simp [hi]
    | some b => exact absurd (h x hx (by rw [hf]; rfl)) hi

@[simp] theorem own_start (w : World) (programs : ι → Program S α) (i : ι) :
    (start w programs).own i = [] := rfl

/-- The configuration after program `i` has been told the reply to its request. -/
def answered (c : Config S ι World α) (i : ι) (q : S.Request) (r : Except S.Err (S.Reply q))
    (k : Except S.Err (S.Reply q) → Program S α) (w : World) : Config S ι World α :=
  ⟨w, Function.update c.program i (k r), c.trace ++ [(i, ⟨q, r⟩)]⟩

variable {c : Config S ι World α} {i : ι} {q : S.Request} {r : Except S.Err (S.Reply q)}
variable {k : Except S.Err (S.Reply q) → Program S α} {w : World}

@[simp] theorem answered_world : (c.answered i q r k w).world = w := rfl

@[simp] theorem answered_trace : (c.answered i q r k w).trace = c.trace ++ [(i, ⟨q, r⟩)] := rfl

theorem mem_answered {x : ι × Event S} :
    x ∈ (c.answered i q r k w).trace ↔ x ∈ c.trace ∨ x = (i, ⟨q, r⟩) := by
  rw [answered_trace, List.mem_append, List.mem_singleton]

@[simp] theorem answered_program_self : (c.answered i q r k w).program i = k r := by
  simp [answered]

theorem answered_program_ne {j : ι} (h : j ≠ i) :
    (c.answered i q r k w).program j = c.program j := by
  simp [answered, h]

@[simp] theorem own_answered_self : (c.answered i q r k w).own i = c.own i ++ [⟨q, r⟩] := by
  simp [own, answered, List.filterMap_append]

theorem own_answered_ne {j : ι} (h : j ≠ i) : (c.answered i q r k w).own j = c.own j := by
  simp [own, answered, List.filterMap_append, Ne.symm h]

end Config

variable [DecidableEq ι] (V : Server S ι World Choice Drift)

inductive Step : Config S ι World α → Config S ι World α → Prop where
  | serve {c : Config S ι World α} {i : ι} {q : S.Request}
      {k : Except S.Err (S.Reply q) → Program S α} {choice : Choice}
      {r : Except S.Err (S.Reply q)} {w : World}
      (hprogram : c.program i = .await q k) (hserve : V.serve i q choice c.world = some (r, w)) :
      Step c (c.answered i q r k w)
  | drift {c : Config S ι World α} {d : Drift} {w : World}
      (hdrift : V.drift d c.world = some w) : Step c { c with world := w }

abbrev Run : Config S ι World α → Config S ι World α → Prop := ReflTransGen (Step V)

/-- A run all of whose steps satisfy a condition. -/
abbrev RunWhere (ok : Config S ι World α → Config S ι World α → Prop) :
    Config S ι World α → Config S ι World α → Prop :=
  ReflTransGen fun c c' => Step V c c' ∧ ok c c'

variable {V}

theorem RunWhere.run {ok : Config S ι World α → Config S ι World α → Prop}
    {c c' : Config S ι World α} (h : RunWhere V ok c c') : Run V c c' :=
  ReflTransGen.mono (fun _ _ hs => hs.1) _ _ h

theorem Step.trace_prefix {c c' : Config S ι World α} (h : Step V c c') :
    c.trace <+: c'.trace := by
  cases h with
  | serve => exact List.prefix_append _ _
  | drift => exact List.prefix_refl _

theorem Run.trace_prefix {c c' : Config S ι World α} (h : Run V c c') : c.trace <+: c'.trace := by
  induction h with
  | refl => exact List.prefix_refl _
  | tail _ hs ih => exact ih.trans hs.trace_prefix

theorem Run.own_prefix {c c' : Config S ι World α} (h : Run V c c') (i : ι) :
    c.own i <+: c'.own i := by
  obtain ⟨rest, hrest⟩ := h.trace_prefix
  exact ⟨rest.filterMap fun x => if x.1 = i then some x.2 else none, by
    simp only [Config.own, ← hrest, List.filterMap_append]⟩

theorem Run.mem_own {c c' : Config S ι World α} (h : Run V c c') {i : ι} {e : Event S}
    (he : e ∈ c.own i) : e ∈ c'.own i :=
  (h.own_prefix i).subset he

/-- From any state on, each program moves on by its own events. -/
theorem Run.continues {c c' : Config S ι World α} (h : Run V c c') (i : ι) :
    ∃ rest, c'.own i = c.own i ++ rest ∧ (c.program i).Leads rest (c'.program i) := by
  induction h with
  | refl => exact ⟨[], (List.append_nil _).symm, .start⟩
  | tail _ hs ih =>
    obtain ⟨rest, hown, hlead⟩ := ih
    cases hs with
    | @serve j q k choice r w hprogram hserve =>
      by_cases hij : i = j
      · subst j
        refine ⟨rest ++ [⟨q, r⟩], ?_, ?_⟩
        · rw [Config.own_answered_self, hown, List.append_assoc]
        · rw [Config.answered_program_self]
          exact .answered (hprogram ▸ hlead) r
      · rw [Config.own_answered_ne hij, Config.answered_program_ne hij]
        exact ⟨rest, hown, hlead⟩
    | drift => exact ⟨rest, hown, hlead⟩

/-- The history of a program is what led it to where it is. -/
theorem Run.leads {programs : ι → Program S α} {w₀ : World} {c : Config S ι World α}
    (h : Run V (.start w₀ programs) c) (i : ι) : (programs i).Leads (c.own i) (c.program i) := by
  obtain ⟨rest, hown, hlead⟩ := h.continues i
  rw [Config.own_start, List.nil_append] at hown
  rw [hown]
  exact hlead

/-- A program only awaits the requests its text allows, in every run. -/
theorem Run.uses {programs : ι → Program S α} {w₀ : World} {c : Config S ι World α}
    (h : Run V (.start w₀ programs) c) {i : ι} {allowed : S.Request → Prop}
    (hp : (programs i).Uses allowed) :
    (∀ e ∈ c.own i, allowed e.request) ∧ (c.program i).Uses allowed :=
  (h.leads i).uses hp

/-- A world invariant is one that every answer and every drift keeps. -/
theorem Run.invariant {P : Config S ι World α → Prop} {c c' : Config S ι World α}
    (h : Run V c c') (hc : P c) (hstep : ∀ a b, Run V c a → P a → Step V a b → P b) : P c' := by
  induction h with
  | refl => exact hc
  | tail hrun hs ih => exact hstep _ _ hrun ih hs

/-- The same for the runs all of whose steps satisfy a condition. -/
theorem RunWhere.invariant {ok : Config S ι World α → Config S ι World α → Prop}
    {P : Config S ι World α → Prop} {c c' : Config S ι World α} (h : RunWhere V ok c c')
    (hc : P c) (hstep : ∀ a b, RunWhere V ok c a → P a → Step V a b → ok a b → P b) : P c' := by
  induction h with
  | refl => exact hc
  | tail hrun hs ih => exact hstep _ _ hrun ih hs.1 hs.2

/-- A condition on steps that follows from what the end of the run shows. -/
theorem RunWhere.of_run {ok : Config S ι World α → Config S ι World α → Prop}
    (good : Config S ι World α → Prop) {c c' : Config S ι World α} (h : Run V c c')
    (hback : ∀ a b, Step V a b → good b → good a) (hok : ∀ a b, Step V a b → good b → ok a b)
    (hgood : good c') : RunWhere V ok c c' := by
  induction h with
  | refl => exact .refl
  | tail hrun hs ih => exact .tail (ih (hback _ _ hs hgood)) ⟨hs, hok _ _ hs hgood⟩

section Histories

variable {programs : ι → Program S α} {w₀ : World}
variable (protocol : ι → Protocol S) (inv : ι → History S → Prop)
variable (post : ι → Except S.Err α → History S → Prop)

/-- Every reply given in the run obeys the protocol of the program it is given to. -/
def Obeys (V : Server S ι World Choice Drift) (c₀ : Config S ι World α) : Prop :=
  ∀ c i q choice r w, Run V c₀ c → V.serve i q choice c.world = some (r, w) →
    protocol i (c.own i) q r

variable {protocol}

/-- What a program ensures for every reply it ensures in every interleaving: the
invariant holds of its history so far, and the rest still ensures the outcome. -/
theorem Run.ensures {c : Config S ι World α} (h : Run V (.start w₀ programs) c)
    (hobeys : Obeys protocol V (.start w₀ programs)) (i : ι) (hnil : inv i [])
    (hp : (programs i).Ensures (protocol i) (inv i) (post i) []) :
    inv i (c.own i) ∧ (c.program i).Ensures (protocol i) (inv i) (post i) (c.own i) := by
  induction h with
  | refl => exact ⟨hnil, hp⟩
  | tail hrun hs ih =>
    cases hs with
    | @serve j q k choice r w hprogram hserve =>
      by_cases hij : i = j
      · subst j
        rw [Config.own_answered_self, Config.answered_program_self]
        have hrest := ih.2
        rw [hprogram] at hrest
        exact hrest r (hobeys _ _ _ _ _ _ hrun hserve)
      · rw [Config.own_answered_ne hij, Config.answered_program_ne hij]
        exact ih
    | drift => exact ih

/-- The same for one program and the runs all of whose steps satisfy a condition. -/
theorem RunWhere.ensures {ok : Config S ι World α → Config S ι World α → Prop}
    {c : Config S ι World α} (h : RunWhere V ok (.start w₀ programs) c) {i : ι}
    {protocol : Protocol S} {inv : History S → Prop} {post : Except S.Err α → History S → Prop}
    (hobeys : ∀ a q k choice r w, Run V (.start w₀ programs) a → a.program i = .await q k →
      V.serve i q choice a.world = some (r, w) → ok a (a.answered i q r k w) →
      protocol (a.own i) q r)
    (hnil : inv []) (hp : (programs i).Ensures protocol inv post []) :
    inv (c.own i) ∧ (c.program i).Ensures protocol inv post (c.own i) := by
  induction h with
  | refl => exact ⟨hnil, hp⟩
  | tail hrun hs ih =>
    obtain ⟨hstep, hok⟩ := hs
    cases hstep with
    | @serve j q k choice r w hprogram hserve =>
      by_cases hij : i = j
      · subst j
        rw [Config.own_answered_self, Config.answered_program_self]
        have hrest := ih.2
        rw [hprogram] at hrest
        exact hrest r (hobeys _ _ _ _ _ _ (RunWhere.run hrun) hprogram hserve hok)
      · rw [Config.own_answered_ne hij, Config.answered_program_ne hij]
        exact ih
    | drift => exact ih

theorem Run.outcome {c : Config S ι World α} (h : Run V (.start w₀ programs) c)
    (hobeys : Obeys protocol V (.start w₀ programs)) (i : ι) (hnil : inv i [])
    (hp : (programs i).Ensures (protocol i) (inv i) (post i) []) {a : α}
    (hdone : c.program i = .pure a) : post i (.ok a) (c.own i) := by
  have hrest := (h.ensures inv post hobeys i hnil hp).2
  rwa [hdone] at hrest

end Histories

section Replay

/-- One scheduling decision. -/
inductive Move (ι Choice Drift : Type) where
  | serve (i : ι) (choice : Choice)
  | drift (d : Drift)

variable (V)

def Config.play (c : Config S ι World α) : Move ι Choice Drift → Option (Config S ι World α)
  | .serve i choice =>
    match c.program i with
    | .await q k => (V.serve i q choice c.world).map fun x => c.answered i q x.1 k x.2
    | _ => none
  | .drift d => (V.drift d c.world).map fun w => { c with world := w }

def Config.replay : List (Move ι Choice Drift) → Config S ι World α → Option (Config S ι World α)
  | [], c => some c
  | m :: ms, c => (c.play V m).bind (Config.replay ms)

variable {V}

theorem Config.step_of_play {c c' : Config S ι World α} {m : Move ι Choice Drift}
    (h : c.play V m = some c') : Step V c c' := by
  cases m with
  | serve i choice =>
    cases hprogram : c.program i with
    | pure a => simp [Config.play, hprogram] at h
    | throw e => simp [Config.play, hprogram] at h
    | await q k =>
      simp only [Config.play, hprogram] at h
      obtain ⟨⟨r, w⟩, hserve, rfl⟩ := Option.map_eq_some_iff.mp h
      exact Step.serve hprogram hserve
  | drift d =>
    obtain ⟨w, hdrift, rfl⟩ := Option.map_eq_some_iff.mp h
    exact Step.drift hdrift

theorem Config.run_of_replay {ms : List (Move ι Choice Drift)} {c c' : Config S ι World α}
    (h : c.replay V ms = some c') : Run V c c' := by
  induction ms generalizing c with
  | nil => cases h; exact .refl
  | cons m ms ih =>
    obtain ⟨d, hplay, hrest⟩ := Option.bind_eq_some_iff.mp h
    exact .head (Config.step_of_play hplay) (ih hrest)

variable (V) in
/-- A replay whose moves all pass a check. -/
def Config.replayWhere (check : Config S ι World α → Move ι Choice Drift → Bool) :
    List (Move ι Choice Drift) → Config S ι World α → Option (Config S ι World α)
  | [], c => some c
  | m :: ms, c => if check c m then (c.play V m).bind (Config.replayWhere check ms) else none

theorem Config.runWhere_of_replayWhere {check : Config S ι World α → Move ι Choice Drift → Bool}
    {ok : Config S ι World α → Config S ι World α → Prop}
    (hcheck : ∀ c m c', c.play V m = some c' → check c m = true → ok c c')
    {ms : List (Move ι Choice Drift)} {c c' : Config S ι World α}
    (h : c.replayWhere V check ms = some c') : c.replay V ms = some c' ∧ RunWhere V ok c c' := by
  induction ms generalizing c with
  | nil => cases h; exact ⟨rfl, .refl⟩
  | cons m ms ih =>
    simp only [Config.replayWhere] at h
    split_ifs at h with hm
    obtain ⟨d, hplay, hrest⟩ := Option.bind_eq_some_iff.mp h
    obtain ⟨hreplay, hrun⟩ := ih hrest
    refine ⟨?_, .head ⟨Config.step_of_play hplay, hcheck c m d hplay hm⟩ hrun⟩
    rw [Config.replay, hplay]
    exact hreplay

variable (V) in
/-- Where a list of moves leads. -/
def Config.after (c : Config S ι World α) (ms : List (Move ι Choice Drift)) : Config S ι World α :=
  (c.replay V ms).getD c

theorem Config.run_after {c : Config S ι World α} {ms : List (Move ι Choice Drift)}
    (h : (c.replay V ms).isSome = true) : Run V c (c.after V ms) := by
  obtain ⟨c', hreplay⟩ := Option.isSome_iff_exists.mp h
  rw [Config.after, hreplay]
  exact Config.run_of_replay hreplay

theorem Config.runWhere_after {check : Config S ι World α → Move ι Choice Drift → Bool}
    {ok : Config S ι World α → Config S ι World α → Prop} {c : Config S ι World α}
    {ms : List (Move ι Choice Drift)}
    (hcheck : ∀ c m c', c.play V m = some c' → check c m = true → ok c c')
    (h : (c.replayWhere V check ms).isSome = true) : RunWhere V ok c (c.after V ms) := by
  obtain ⟨c', hreplay⟩ := Option.isSome_iff_exists.mp h
  obtain ⟨hplain, hrun⟩ := Config.runWhere_of_replayWhere hcheck hreplay
  rw [Config.after, hplain]
  exact hrun

end Replay

end Async
