import LeakTrace.Proofs.Path.Limits
import LeakTrace.Proofs.Path.Moving

/-!
# Paths that are made of paths

A path that was made can be moved to another root and can lose or gain steps, in any order and as
often as one likes. Each such change returns the path it was given, or asks for a new one
(`PathChange.run_eq`), so what canonical forms have in common is true of every path that ever comes
out (`returned_wellFormed`).

**The warnings of a path do not come along by themselves.** Whether a path was cut is found out anew
for the chain that is asked for, and a chain that was folded once has nothing to fold any more. That
aliases matter is part of the request, and not every change puts it there (`flags_kept_iff`).
-/

namespace LeakTrace
variable {r : PathRules}

inductive PathChange where
  | rebase (v : Value) (ty : Option Ty) (cutFirst reduce : Bool) (part : ArrayPart)
  | onto (v : Value)
  | ontoTyped (v : Value) (ty : Option Ty) (cutFirst : Bool)
  | append (steps : List Step) (deep : Bool)
  | merge (other : AccessPath)
  | dropLast
  | expand (position : Nat) (pattern : List Step)

namespace PathChange
variable {c : PathChange} {a b : AccessPath} {s : PathStore}

def run (a : AccessPath) : PathChange → Paths (Option AccessPath)
  | .rebase v ty cutFirst reduce part => Paths.rebase a v ty cutFirst reduce part
  | .onto v => Paths.onto a v
  | .ontoTyped v ty cutFirst => Paths.ontoTyped a v ty cutFirst
  | .append steps deep => Paths.append a steps deep
  | .merge other => Paths.merge a other
  | .dropLast => Paths.dropLast a
  | .expand position pattern => Paths.expand a position pattern

/-- The request that a change makes, told from the one for the path by its own parts. -/
def request (a : AccessPath) : PathChange → PathRequest
  | .rebase v ty cutFirst reduce part => { a.again reduce with value := some v, ty, cutFirst, part }
  | .onto v => { a.again true with value := some v }
  | .ontoTyped v ty cutFirst => { a.again true with value := some v, ty, cutFirst }
  | .append steps deep => { a.again true with steps := a.steps ++ steps, deep, immutable := false }
  | .merge other =>
    { a.again true with steps := a.steps ++ other.steps, deep := other.deep, immutable := false }
  | .dropLast =>
    { a.again true with steps := a.steps.dropLast, deep := true, immutable := false }
  | .expand position pattern =>
    { a.again false with steps := a.steps.take position ++ pattern ++ a.steps.drop position }

def moves : PathChange → Bool
  | .rebase .. | .onto _ | .ontoTyped .. => true
  | _ => false

/-- There is nothing to change, and no request is made. -/
def idle (a : AccessPath) : PathChange → Bool
  | .rebase v ty cutFirst _ part => a.isAt v ty cutFirst part
  | .onto v => a.isAt v a.ty false a.part
  | .ontoTyped v ty cutFirst => a.isAt v ty cutFirst a.part
  | .append steps _ => steps.isEmpty
  | .merge other => other.steps.isEmpty
  | .dropLast => a.steps.isEmpty
  | .expand .. => false

/-- A change returns the path that it was given, or the one that it asks for. A path that is moved is
compared with the one it was before, and that one is kept if they are equal. -/
theorem run_eq (c : PathChange) (a : AccessPath) (s : PathStore) :
    ((c.run a).run s).1 =
      if c.idle a then some a
      else (s.rules.canon (c.request a)).path.map fun b => if c.moves && b.same a then a else b := by
  have hmake : ∀ (idle : Bool) (q : PathRequest),
      ((if idle then pure (some a) else Paths.make q : Paths (Option AccessPath)).run s).1 =
        if idle then some a else (s.rules.canon q).path.map id := by
    intro idle q
    cases idle
    · simpa using Paths.run_make q s
    · rfl
  cases c with
  | rebase | onto | ontoTyped => exact Paths.run_rebase _ _ _ _ _ _ _
  | append steps | merge other | dropLast => exact hmake _ _
  | expand => exact hmake false _

theorem run_settled (c : PathChange) (a : AccessPath) : (c.run a).Settled r := by
  cases c with
  | rebase | onto | ontoTyped => exact Paths.rebase_settled
  | append | merge => exact Paths.append_settled
  | dropLast => exact Paths.dropLast_settled
  | expand => exact Paths.make_settled

end PathChange

/-! ## What is true of every path -/

/-- A path names something and is no longer than the limit, and what stands before a field of it can
have fields. -/
structure Path.WellFormed (limit : Nat) (p : Path) : Prop where
  nonempty : p.isEmpty = false
  length_le : p.steps.length ≤ limit
  primitiveBase : ∀ t ∈ p.ty, t.isPrimitive = true → p.steps = []
  primitiveArray : ∀ l ∈ p.base, ∀ e ∈ l.ty.element?, e.isReference = false → p.steps = []
  primitiveField : ∀ s ∈ p.steps.dropLast, s.field.ty.isPrimitive = false

theorem PathRules.Made.wellFormed {p : AccessPath} (h : r.Made p) :
    p.WellFormed r.settings.length := by
  obtain ⟨hbase, hfields, -⟩ := feasible_iff.mp h.feasible
  refine ⟨isEmpty_eq_false h.feasible, h.length_le, hbase, fun l hl e he href => ?_, hfields⟩
  simpa [arrayAllows, Option.mem_def.mp hl, Option.mem_def.mp he, href] using h.allowed

inductive PathCall where
  | make (q : PathRequest)
  | ofValue (v : Value) (deep : Bool)
  | ofTyped (v : Value) (ty : Option Ty) (deep : Bool) (part : ArrayPart)
  /-- Changes a path that was returned before, by its number; number zero is the empty path. -/
  | change (number : Nat) (c : PathChange)

/-- What was made so far, and the paths that were returned, in order. -/
structure PathHistory where
  store : PathStore
  returned : List AccessPath

namespace PathHistory
variable {h : PathHistory}

def start (r : PathRules) : PathHistory := ⟨{ rules := r }, [.empty]⟩

def perform (h : PathHistory) : PathCall → Paths (Option AccessPath)
  | .make q => Paths.make q
  | .ofValue v deep => Paths.ofValue v deep
  | .ofTyped v ty deep part => Paths.ofTyped v ty deep part
  | .change number c => c.run (h.returned.getD number .empty)

def call (h : PathHistory) (c : PathCall) : PathHistory where
  store := ((h.perform c).run h.store).2
  returned := h.returned ++ ((h.perform c).run h.store).1.toList

/-- The rules stay as they are, and whatever was returned is empty or well formed. -/
structure Sound (r : PathRules) (h : PathHistory) : Prop where
  rules : h.store.rules = r
  returned : ∀ a ∈ h.returned, a = .empty ∨ a.WellFormed r.settings.length

theorem perform_settled (h : PathHistory) (c : PathCall) : (h.perform c).Settled r := by
  cases c with
  | make | ofValue | ofTyped => exact Paths.make_settled
  | change number c => exact c.run_settled _

theorem Sound.call (hs : h.Sound r) (c : PathCall) : (h.call c).Sound r := by
  obtain ⟨_, hanswer⟩ := h.perform_settled (r := r) c
  refine ⟨(hanswer h.store hs.rules).2, fun a ha => ?_⟩
  rcases List.mem_append.mp ha with ha | ha
  · exact hs.returned a ha
  have hrun := Option.mem_toList.mp ha
  have hmade : ∀ {q b}, (h.store.rules.canon q).path = some b → b.WellFormed r.settings.length :=
    fun hb => hs.rules ▸ (PathRules.made_of_canon hb).wellFormed
  cases c with
  | make | ofValue | ofTyped => exact .inr (hmade ((Paths.run_make _ _).symm.trans hrun))
  | change number c =>
    have hgiven : h.returned.getD number .empty = .empty ∨
        (h.returned.getD number .empty).WellFormed r.settings.length := by
      rw [List.getD_eq_getElem?_getD]
      cases hget : h.returned[number]? with
      | none => exact .inl rfl
      | some b => exact hs.returned b (List.mem_of_getElem? hget)
    have hrun := (c.run_eq _ _).symm.trans hrun
    split at hrun
    · rw [← Option.some.inj hrun]
      exact hgiven
    · obtain ⟨b, hb, rfl⟩ := Option.map_eq_some_iff.mp hrun
      split
      · exact hgiven
      · exact .inr (hmade hb)

/-- **Every path that is returned is well formed**, but for the empty one that is there from the
start: after any calls in any order, under any rules. -/
theorem returned_wellFormed (r : PathRules) (calls : List PathCall) (a : AccessPath)
    (ha : a ∈ (calls.foldl call (start r)).returned) :
    a = .empty ∨ a.WellFormed r.settings.length := by
  have hsound : (calls.foldl call (start r)).Sound r := by
    refine List.foldlRecOn calls call (motive := Sound r) ⟨rfl, ?_⟩ fun h hs c _ => hs.call c
    exact List.forall_mem_singleton.mpr (.inl rfl)
  exact hsound.returned a ha

/-- `o.f.next.extra` is made, which gives `o.f.extra`. That path is moved to another owner, made longer
and shorter, and gets back the field that was folded away. -/
def extraCalls : List PathCall :=
  [.make { PathRules.extraThroughNext with immutable := true },
    .change 1 (.onto (.var ⟨1, "other", .cls "Main"⟩)),
    .change 1 (.append [.of ⟨"java.lang.String", "value", .array .char, false⟩] true),
    .change 1 .dropLast,
    .change 1 (.expand 1 [.of PathRules.nextNode])]

theorem longer_extra_wellFormed :
    ∃ a ∈ (extraCalls.foldl call (start PathRules.nodeRules)).returned,
      a.steps.length = 3 ∧ (a = .empty ∨ a.WellFormed 5) := by
  have hany : ((extraCalls.foldl call (start PathRules.nodeRules)).returned.any
      (·.steps.length == 3)) := by
    decide +kernel
  obtain ⟨a, ha, hlength⟩ := List.any_eq_true.mp hany
  exact ⟨a, ha, by simpa using hlength, returned_wellFormed PathRules.nodeRules extraCalls a ha⟩

end PathHistory

/-! ## Warnings -/

namespace PathChange
variable {c : PathChange} {a b : AccessPath} {s : PathStore}

/-- The change asks for what was said of aliases. -/
def carriesImmutable : PathChange → Bool
  | .append .. | .merge _ | .dropLast => false
  | _ => true

theorem immutable_request (c : PathChange) (a : AccessPath) :
    (c.request a).immutable = (c.carriesImmutable && a.immutable) := by
  cases c <;> rfl

def GivesBack (c : PathChange) (a b : AccessPath) : Prop :=
  c.idle a = true ∨ c.moves = true ∧ b.toPath = a.toPath

/-- **When the warnings of a path stay.** That aliases matter stays exactly if the change asks for it
or has nothing to do; that the path was cut stays exactly if the path is given back, or if something
is lost of the new chain as well. -/
theorem flags_kept_iff (hb : ((c.run a).run s).1 = some b) :
    ((a.immutable = true → b.immutable = true) ↔
        a.immutable = false ∨ c.carriesImmutable = true ∨ c.idle a = true) ∧
      ((a.cut = true → b.cut = true) ↔
        a.cut = false ∨ c.GivesBack a b ∨ s.rules.Shortens (c.request a)) := by
  unfold GivesBack
  rw [run_eq] at hb
  split at hb
  · next hidle =>
    obtain rfl := Option.some.inj hb
    simp [hidle]
  · next hidle =>
    obtain ⟨m, hm, rfl⟩ := Option.map_eq_some_iff.mp hb
    have hcarries : c.moves → c.carriesImmutable := by
      cases c <;> simp [moves, carriesImmutable]
    split
    · next hsame =>
      obtain ⟨hmoves, -⟩ := Bool.and_eq_true_iff.mp hsame
      simp [hcarries hmoves, hmoves]
    · next hsame =>
      have himmutable : m.immutable = (c.carriesImmutable && a.immutable) := by
        rw [← immutable_request]
        obtain ⟨_, _, -, -, -, -, rfl⟩ := PathRules.path_canon_eq_some_iff.mp hm
        rfl
      have hnew : ¬(c.moves ∧ m.toPath = a.toPath) := by
        simpa [AccessPath.same] using hsame
      rw [himmutable, ← PathRules.cut_canon_iff hm]
      simp only [hidle, hnew]
      cases a.immutable <;> cases a.cut <;> simp

/-- `o.f.extra`, of which it is said that aliases matter, still tells so when it is moved. -/
theorem immutable_extra_moved :
    let a : AccessPath := ⟨{ PathRules.extraThrough (.cls "Node") with immutable := true }, true⟩
    ∃ b, (((onto (.var ⟨1, "other", .cls "Main"⟩)).run a).run { rules := PathRules.nodeRules }).1 =
      some b ∧ b.immutable = true := by
  intro a
  obtain ⟨b, hb⟩ : ∃ b, (((onto (.var ⟨1, "other", .cls "Main"⟩)).run a).run
      { rules := PathRules.nodeRules }).1 = some b := by
    rw [← Option.isSome_iff_exists, run_eq]
    decide +kernel
  exact ⟨b, hb, (flags_kept_iff hb).1.mpr (.inr (.inl rfl)) rfl⟩

/-- **Every change loses a warning.** Of `o.f.extra` it is known that aliases matter and that it was
cut; moved or expanded it was not cut any more, made longer or shorter it has lost both. -/
theorem extra_loses_warnings :
    (PathHistory.extraCalls.foldl PathHistory.call (.start PathRules.nodeRules)).returned.map
        (fun a => (a.immutable, a.cut)) =
      [(false, false), (true, true), (true, false), (false, false), (false, false),
        (true, false)] := by
  decide +kernel

end PathChange
end LeakTrace
