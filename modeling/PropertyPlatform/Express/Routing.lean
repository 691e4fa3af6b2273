import PropertyPlatform.Js.Text
import PropertyPlatform.Js.Utf8

/-!
# How a request runs through an Express application

An application is a list of layers: middleware and routers under a mount path, and routes.
A request runs the handlers of every layer that matches it, in order, until one of them
sends the response or fails. What a handler does is left open; it may change a state that
all requests share.
-/

namespace Express

inductive Method where
  | get
  | head
  | post
  | options
  | other
  deriving DecidableEq

/-- How a handler leaves the request: with `next()`, answered, or with an error. -/
inductive Flow where
  | next
  | ends
  | fails
  deriving DecidableEq

inductive Segment where
  | literal (text : String)
  | param

inductive Layer (H : Type) where
  | use (mount : List Char) (handlers : List H)
  | route (method : Method) (pattern : List Segment) (handlers : List H)
  | router (mount : List Char) (layers : List (Layer H))

section Paths

def lower (cs : List Char) : List Char := cs.map Char.toLower

/-- What is left of a path below a mount point. One slash after it may be doubled. -/
def mounted (mount path : List Char) : Option (List Char) :=
  if mount = [] then some path
  else if lower (path.take mount.length) = lower mount then
    match path.drop mount.length with
    | [] => some ['/']
    | '/' :: '/' :: rest => some ('/' :: rest)
    | '/' :: rest => some ('/' :: rest)
    | _ => none
  else none

/-- The bytes a text with escapes stands for. -/
def unescape : List Char → Option (List UInt8)
  | [] => some []
  | '%' :: a :: b :: rest =>
    match Js.hexValue a, Js.hexValue b, unescape rest with
    | some x, some y, some bytes => some (UInt8.ofNat (16 * x + y) :: bytes)
    | _, _, _ => none
  | '%' :: _ => none
  | c :: rest => (unescape rest).map (Js.utf8Char c ++ ·)

/-- `decodeURIComponent` takes the text. -/
def decodes (text : List Char) : Bool :=
  (unescape text).any fun bytes => Js.encodeUtf8 (Js.decodeUtf8 bytes) == bytes

def splitSlashes : List Char → List (List Char)
  | [] => [[]]
  | c :: cs =>
    if c = '/' then [] :: splitSlashes cs
    else match splitSlashes cs with
      | [] => [[c]]
      | s :: rest => (c :: s) :: rest

/-- A path that matches a pattern is `malformed` if a parameter cannot be decoded. -/
inductive Match where
  | no
  | yes
  | malformed
  deriving DecidableEq

def matchSegments : List Segment → List (List Char) → Match
  | [], [] => .yes
  | [], [[]] => .yes
  | .literal text :: pattern, s :: rest =>
    if lower s = lower text.toList then matchSegments pattern rest else .no
  | .param :: pattern, s :: rest =>
    if s = [] then .no
    else match matchSegments pattern rest with
      | .yes => if decodes s then .yes else .malformed
      | other => other
  | _, _ => .no

def matchPath (pattern : List Segment) : List Char → Match
  | '/' :: path => matchSegments pattern (splitSlashes path)
  | _ => .no

theorem lower_of_mounted {mount path rest : List Char} (h : mounted mount path = some rest) :
    lower (path.take mount.length) = lower mount := by
  by_contra hne
  rw [mounted] at h
  split_ifs at h with hmount
  subst hmount
  exact hne rfl

theorem splitSlashes_cons {c : Char} (hc : c ≠ '/') (cs : List Char) :
    ∃ s rest, splitSlashes (c :: cs) = (c :: s) :: rest := by
  rw [splitSlashes, if_neg hc]
  split
  · exact ⟨[], [], rfl⟩
  · exact ⟨_, _, rfl⟩

/-- Only paths that begin with a literal's first character match it. -/
theorem matchPath_of_head {c : Char} (hc : c ≠ '/') {text : String}
    (hne : (lower text.toList).head? ≠ some c.toLower) (pattern : List Segment)
    (path : List Char) : matchPath (.literal text :: pattern) ('/' :: c :: path) = .no := by
  obtain ⟨s, rest, h⟩ := splitSlashes_cons hc path
  rw [matchPath, h, matchSegments]
  apply if_neg
  intro heq
  apply hne
  rw [← heq]
  rfl

theorem exists_of_matchPath {pattern : List Segment} {path : List Char}
    (h : matchPath pattern path ≠ .no) :
    ∃ p, path = '/' :: p ∧ matchPath pattern path = matchSegments pattern (splitSlashes p) := by
  unfold matchPath at h ⊢
  split
  case h_1 p => exact ⟨p, rfl, rfl⟩
  case h_2 hno =>
    split at h
    case h_1 p => exact absurd rfl (hno p)
    case h_2 => exact absurd rfl h

/-- Patterns with different first literals match different paths. -/
theorem matchPath_of_other {a b : String} {pattern other : List Segment} {path : List Char}
    (h : matchPath (.literal a :: pattern) path ≠ .no)
    (hne : lower a.toList ≠ lower b.toList) : matchPath (.literal b :: other) path = .no := by
  by_contra hb
  obtain ⟨p, rfl, ha⟩ := exists_of_matchPath h
  obtain ⟨_, hp, hb'⟩ := exists_of_matchPath hb
  obtain rfl := (List.cons.inj hp).2
  rw [ha] at h
  rw [hb'] at hb
  cases hs : splitSlashes p with
  | nil => simp [hs, matchSegments] at h
  | cons s rest =>
    rw [hs, matchSegments] at h hb
    have hsa : lower s = lower a.toList := by
      by_contra hsa
      exact h (if_neg hsa)
    have hsb : lower s = lower b.toList := by
      by_contra hsb
      exact hb (if_neg hsb)
    exact hne (hsa.symm.trans hsb)

theorem matchPath_literal (text : String) (path : List Char) :
    matchPath [.literal text] path ≠ .malformed := by
  unfold matchPath
  split
  · cases splitSlashes _ with
    | nil => simp [matchSegments]
    | cons s rest =>
      rw [matchSegments]
      split_ifs
      · cases rest with
        | nil => simp [matchSegments]
        | cons t ts => cases t <;> cases ts <;> simp [matchSegments]
      · simp
  · simp

end Paths

/-- A route for `GET` also answers `HEAD`. -/
def handles (route method : Method) : Bool :=
  method == route || (method == .head && route == .get)

/-- What a stretch of the chain has done. -/
structure Run (σ H : Type) where
  state : σ
  ran : List (H × Flow)
  flow : Flow

variable {σ H : Type}

/-- The second stretch follows if the first one ended with `next()`. -/
def Run.andThen (first : Run σ H) (rest : σ → Run σ H) : Run σ H :=
  match first.flow with
  | .next => ⟨(rest first.state).state, first.ran ++ (rest first.state).ran,
      (rest first.state).flow⟩
  | _ => first

def passOn (s : σ) : Run σ H := ⟨s, [], .next⟩

@[simp] theorem andThen_passOn (r : Run σ H) : r.andThen passOn = r := by
  obtain ⟨s, ran, flow⟩ := r
  cases flow <;> simp [Run.andThen, passOn]

theorem passOn_andThen (s : σ) (rest : σ → Run σ H) : (passOn s).andThen rest = rest s := by
  simp [Run.andThen, passOn]

theorem Run.andThen_assoc (r : Run σ H) (f g : σ → Run σ H) :
    (r.andThen f).andThen g = r.andThen fun s => (f s).andThen g := by
  cases hr : r.flow with
  | next => cases hf : (f r.state).flow <;> simp [Run.andThen, hr, hf]
  | ends => simp [Run.andThen, hr]
  | fails => simp [Run.andThen, hr]

section Dispatch

variable (behave : H → σ → σ × Flow)

def runHandlers : List H → σ → Run σ H
  | [], s => passOn s
  | h :: hs, s => Run.andThen ⟨(behave h s).1, [(h, (behave h s).2)], (behave h s).2⟩
      (runHandlers hs)

variable (method : Method)

mutual

def runLayer (path : List Char) : Layer H → σ → Run σ H
  | .use mount hs, s =>
    match mounted mount path with
    | some _ => runHandlers behave hs s
    | none => passOn s
  | .route m pattern hs, s =>
    match matchPath pattern path with
    | .yes => if handles m method then runHandlers behave hs s else passOn s
    | .malformed => ⟨s, [], .fails⟩
    | .no => passOn s
  | .router mount layers, s =>
    match mounted mount path with
    | some rest => runLayers rest layers s
    | none => passOn s

def runLayers (path : List Char) : List (Layer H) → σ → Run σ H
  | [], s => passOn s
  | l :: ls, s => (runLayer path l s).andThen (runLayers path ls)

end

theorem runLayers_append (path : List Char) (as bs : List (Layer H)) (s : σ) :
    runLayers behave method path (as ++ bs) s =
      (runLayers behave method path as s).andThen (runLayers behave method path bs) := by
  induction as generalizing s with
  | nil => exact (passOn_andThen s _).symm
  | cons l ls ih =>
    simp only [List.cons_append, runLayers, Run.andThen_assoc]
    congr 1
    funext s'
    exact ih s'

/-- Middleware mounted on every path is a chain of handlers. -/
theorem runLayers_uses (path : List Char) (hs : List H) (s : σ) :
    runLayers behave method path (hs.map fun h => .use [] [h]) s = runHandlers behave hs s := by
  induction hs generalizing s with
  | nil => rfl
  | cons h hs ih =>
    simp only [List.map_cons, runLayers, runLayer, mounted, ↓reduceIte, runHandlers]
    congr 1
    · exact andThen_passOn _
    · funext s'
      exact ih s'

end Dispatch

mutual

/-- Every handler a layer can run. -/
def Layer.handlers : Layer H → List H
  | .use _ hs => hs
  | .route _ _ hs => hs
  | .router _ layers => layersHandlers layers

def layersHandlers : List (Layer H) → List H
  | [] => []
  | l :: ls => l.handlers ++ layersHandlers ls

end

section Frames

variable {behave : H → σ → σ × Flow} {method : Method} {path : List Char}

/-- A run that keeps a property of the state and only runs handlers of a list. -/
structure Within (keep : σ → Prop) (allowed : List H) (r : Run σ H) : Prop where
  kept : keep r.state
  ran : ∀ x ∈ r.ran, x.1 ∈ allowed

variable {keep : σ → Prop}

theorem Within.passOn {s : σ} (hs : keep s) (allowed : List H) : Within keep allowed (passOn s) :=
  ⟨hs, fun _ hx => (List.not_mem_nil hx).elim⟩

theorem Within.mono {allowed more : List H} {r : Run σ H} (h : Within keep allowed r)
    (hsub : allowed ⊆ more) : Within keep more r :=
  ⟨h.kept, fun x hx => hsub (h.ran x hx)⟩

theorem Within.andThen {first : Run σ H} {rest : σ → Run σ H} {allowed more : List H}
    (h : Within keep allowed first) (hrest : ∀ s, keep s → Within keep more (rest s)) :
    Within keep (allowed ++ more) (first.andThen rest) := by
  unfold Run.andThen
  split
  · refine ⟨(hrest _ h.kept).kept, fun x hx => ?_⟩
    rcases List.mem_append.mp hx with hx | hx
    · exact List.mem_append_left _ (h.ran x hx)
    · exact List.mem_append_right _ ((hrest _ h.kept).ran x hx)
  · exact h.mono (List.subset_append_left _ _)

theorem within_runHandlers {hs : List H} (hkeep : ∀ h ∈ hs, ∀ s, keep s → keep (behave h s).1)
    {s : σ} (h : keep s) : Within keep hs (runHandlers behave hs s) := by
  induction hs generalizing s with
  | nil => exact .passOn h []
  | cons x xs ih =>
    have hfirst : Within keep [x] ⟨(behave x s).1, [(x, (behave x s).2)], (behave x s).2⟩ := by
      refine ⟨hkeep x List.mem_cons_self s h, fun y hy => ?_⟩
      rw [List.mem_singleton.mp hy]
      exact List.mem_singleton_self x
    apply hfirst.andThen
    intro s' hs'
    exact ih (fun y hy => hkeep y (List.mem_cons_of_mem _ hy)) hs'

variable (behave) in
/-- A route that the request does not take runs nothing. -/
theorem within_unhandled {m : Method} {pattern : List Segment} (hs : List H)
    (hno : matchPath pattern path = .yes → handles m method = false) {s : σ} (h : keep s) :
    Within keep [] (runLayer behave method path (.route m pattern hs) s) := by
  rw [runLayer]
  split
  case h_1 hyes =>
    rw [hno hyes]
    exact .passOn h []
  case h_2 => exact ⟨h, fun _ hx => (List.not_mem_nil hx).elim⟩
  case h_3 => exact .passOn h []

mutual

/-- A layer runs its own handlers only, and keeps what they all keep. -/
theorem within_runLayer (path : List Char) : ∀ (l : Layer H),
    (∀ h ∈ l.handlers, ∀ s, keep s → keep (behave h s).1) →
    ∀ s, keep s → Within keep l.handlers (runLayer behave method path l s)
  | .use mount hs, hkeep, s, h => by
    rw [runLayer]
    split
    · exact within_runHandlers hkeep h
    · exact .passOn h _
  | .route m pattern hs, hkeep, s, h => by
    rw [runLayer]
    split
    · split_ifs
      · exact within_runHandlers hkeep h
      · exact .passOn h _
    · exact ⟨h, fun _ hx => (List.not_mem_nil hx).elim⟩
    · exact .passOn h _
  | .router mount layers, hkeep, s, h => by
    rw [runLayer]
    split
    · exact within_runLayers _ layers hkeep s h
    · exact .passOn h _

theorem within_runLayers (path : List Char) : ∀ (ls : List (Layer H)),
    (∀ h ∈ layersHandlers ls, ∀ s, keep s → keep (behave h s).1) →
    ∀ s, keep s → Within keep (layersHandlers ls) (runLayers behave method path ls s)
  | [], _, s, h => .passOn h _
  | l :: ls, hkeep, s, h => by
    rw [runLayers, layersHandlers]
    have hfirst := within_runLayer path l
      (fun x hx => hkeep x (List.mem_append_left _ hx)) s h
    exact hfirst.andThen (within_runLayers path ls
      fun x hx => hkeep x (List.mem_append_right _ hx))

end

variable {first : Run σ H} {rest : σ → Run σ H}

theorem Run.andThen_kept (h : keep first.state) (hrest : ∀ s, keep s → keep (rest s).state) :
    keep (first.andThen rest).state := by
  unfold Run.andThen
  split
  · exact hrest _ h
  · exact h

theorem kept_runHandlers (hkeep : ∀ h s, keep s → keep (behave h s).1) (hs : List H) {s : σ}
    (h : keep s) : keep (runHandlers behave hs s).state :=
  (within_runHandlers (fun x _ => hkeep x) h).kept

theorem kept_runLayers (hkeep : ∀ h s, keep s → keep (behave h s).1) (ls : List (Layer H))
    {s : σ} (h : keep s) : keep (runLayers behave method path ls s).state :=
  (within_runLayers path ls (fun x _ => hkeep x) s h).kept

end Frames

end Express
