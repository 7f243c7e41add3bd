import LeakTrace.Proofs.Assignments.Transfer
import LeakTrace.Proofs.Path.Stretches

/-!
# What a path says about a value that is read

Outside of the lazy search the paths decide whether a taint covers a value. **A positive answer is
about the value**: it is rooted where the value is, and it begins with the field that is read or is
about everything behind the root.

**A negative answer need not mean that nothing was tainted.** Folding takes fields off the front of
a path and relies on the query to put them back in. The query tries one stretch, the first that was
registered, and a stretch may not fit in front of what folding left of its own chain.
-/

namespace LeakTrace
open Option

variable {e : Env} {w : World} {a q : AccessPath} {v : Value} {o l : Local} {f : Field}

/-- The path means the place that is read, or everything behind the root of the read. -/
def Path.CoversRead (p : Path) : Value → Prop
  | .var l | .element l _ => p.base = some l
  | .field o f => p.base = some o ∧ (p.firstField? = some f ∨ p.steps = [] ∧ p.deep = true)
  | .global f => p.isStaticField = true ∧ p.firstField? = some f
  | _ => False

theorem Path.reaches_iff {p : Path} :
    p.reaches f ↔ p.firstField? = some f ∨ p.steps = [] ∧ p.deep := by
  unfold Path.reaches Path.firstField?
  cases p.steps <;> simp

/-- The path with the first stretch that begins with a field back in front. -/
def PathStore.unfolded? (s : PathStore) (a : AccessPath) (f : Field) : Option AccessPath := do
  let t ← a.ty
  let stretch ← s.stretch? t f
  (s.rules.canon (a.expansion stretch)).path

theorem PathStore.unfolded?_eq_some {s : PathStore} (h : s.unfolded? a f = some q) :
    ∃ t stretch, a.ty = some t ∧ s.stretch? t f = some stretch ∧
      (s.rules.canon (a.expansion stretch)).path = some q := by
  obtain ⟨t, ht, h⟩ := bind_eq_some_iff.mp h
  obtain ⟨stretch, hstretch, h⟩ := bind_eq_some_iff.mp h
  exact ⟨t, stretch, ht, hstretch, h⟩

namespace Track

/-! ## What the query answers -/

theorem coverFields_behind (hbase : a.base = some o) :
    w.Ends e (coverFields a (some f)) fun answer _ => answer =
      if a.reaches f then some a else if a.steps = [] then none else w.paths.unfolded? a f := by
  unfold coverFields Path.reaches Path.firstField?
  dsimp only
  cases hsteps : a.steps with
  | nil => rfl
  | cons s rest =>
    rw [List.head?_cons, map_some]
    dsimp only
    split
    · rfl
    · rw [if_neg (by simp [Path.isStaticField, hbase]), if_neg (List.cons_ne_nil s rest)]
      refine .get ?_
      unfold PathStore.unfolded? PathStore.stretch?
      cases hty : a.ty with
      | none => rfl
      | some t =>
        simp only [map_some, getD_some, bind_eq_bind, bind_some]
        split
        · next stretch hfind =>
          rw [hfind, bind_some, Paths.expand_front]
          exact Paths.run_make _ _
        · next hfind =>
          rw [hfind]
          rfl

/-- The first field of a path without base is its root: nothing is ever put in front of it. -/
theorem coverFields_global (hstatic : a.isStaticField) :
    w.Ends e (coverFields a (some f)) fun answer _ => answer =
      if a.firstField? = some f then some a else none := by
  unfold coverFields Path.firstField?
  dsimp only
  cases hsteps : a.steps with
  | nil => simp [Path.isStaticField, hsteps] at hstatic
  | cons s rest =>
    rw [List.head?_cons, map_some]
    dsimp only
    by_cases hf : s.field = f
    · rw [if_pos (beq_iff_eq.mpr hf), if_pos (congrArg some hf)]
      rfl
    · rw [if_neg (by simpa using hf), if_pos hstatic, if_neg (by simpa using hf)]
      rfl

section
variable (hplain : e.config.aliasing.isInteractive = false)
include hplain

theorem mayAlias_behind (hbase : a.base = some o) :
    w.Ends e (mayAlias a (.field o f)) fun answer _ => answer =
    if a.reaches f then some a else if a.steps = [] then none else w.paths.unfolded? a f := by
  refine .read ?_
  dsimp only
  rw [if_neg (by simp [Value.holds]), if_neg (by simp [hplain]), if_neg (by simp [hbase]),
    if_neg (by simp [Value.isGlobal])]
  exact coverFields_behind hbase

/-- But for fields of its own base, the path itself covers the read or nothing does. -/
theorem mayAlias_elsewhere (hv : ∀ o f, v = .field o f → a.base ≠ some o) :
    w.Ends e (mayAlias a v) fun answer _ =>
      a.CoversRead v ∧ answer = some a ∨ ¬a.CoversRead v ∧ answer = none := by
  refine .read ?_
  cases v with
  | var l | element l i =>
    dsimp only
    rw [if_neg (by simp [Value.holds]), if_neg (by simp [hplain])]
    by_cases hbase : a.base = some l
    · rw [if_neg (by simp [hbase]), if_neg (by simp [Value.isGlobal])]
      exact .inl ⟨hbase, rfl⟩
    · rw [if_pos (by simpa using hbase)]
      exact .inr ⟨hbase, rfl⟩
  | field o f =>
    have hbase := hv o f rfl
    dsimp only
    rw [if_neg (by simp [Value.holds]), if_neg (by simp [hplain]), if_pos (by simpa using hbase)]
    exact .inr ⟨fun h => hbase h.1, rfl⟩
  | global f =>
    dsimp only
    rw [if_neg (by simp [Value.holds]), if_neg (by simp [hplain]), if_neg (by simp)]
    cases hstatic : a.isStaticField with
    | false =>
      rw [if_pos (by simp [Value.isGlobal])]
      refine .inr ⟨fun h => ?_, rfl⟩
      rw [h.1] at hstatic
      cases hstatic
    | true =>
      rw [if_neg (by simp)]
      refine (coverFields_global hstatic).mono ?_
      rintro _ - rfl
      split
      · next hf => exact .inl ⟨⟨hstatic, hf⟩, rfl⟩
      · next hf => exact .inr ⟨fun h => hf h.2, rfl⟩
  | _ => exact .inr ⟨id, rfl⟩

/-- Where the path covers the read it is the answer itself; the only other answer is the path with a
stretch back in front of another field. -/
theorem mayAlias_answers : w.Ends e (mayAlias a v) fun answer _ =>
      (a.CoversRead v → answer = some a) ∧ (¬a.CoversRead v → ∀ q, answer = some q →
        ∃ o f, v = .field o f ∧ a.base = some o ∧ a.steps ≠ [] ∧
          w.paths.unfolded? a f = some q) := by
  by_cases hfield : ∃ o f, v = .field o f ∧ a.base = some o
  · obtain ⟨o, f, rfl, hbase⟩ := hfield
    have hcovers : a.CoversRead (.field o f) ↔ a.reaches f := by
      rw [Path.reaches_iff]
      exact and_iff_right hbase
    rw [hcovers]
    refine (mayAlias_behind hplain hbase).mono ?_
    rintro _ - rfl
    refine ⟨fun h => if_pos h, fun h q hq => ⟨o, f, rfl, hbase, ?_⟩⟩
    rw [if_neg h] at hq
    simpa using hq
  · refine (mayAlias_elsewhere hplain fun o f hv hbase => hfield ⟨o, f, hv, hbase⟩).mono ?_
    rintro _ - (⟨hcovers, rfl⟩ | ⟨hnot, rfl⟩)
    · exact ⟨fun _ => rfl, fun h => absurd hcovers h⟩
    · exact ⟨fun h => absurd h hnot, fun _ q hq => by cases hq⟩

end

/-- **A positive answer covers the read.** It is the path itself, which is always the answer where
it covers the read, or the path with a registered stretch in front of its steps. -/
theorem mayAlias_covers_read (hplain : e.config.aliasing.isInteractive = false)
    (hmade : a = AccessPath.empty ∨ ∃ request, (w.paths.rules.canon request).path = some a) :
    (a.CoversRead v → (((mayAlias a v).run e).run w).1 = some a) ∧
      ∀ q, (((mayAlias a v).run e).run w).1 = some q → q.CoversRead v ∧
        (q = a ∨ ∃ t stretch, a.ty = some t ∧ stretch ∈ w.paths.patternsFor t ∧
          (w.paths.rules.canon (a.expansion stretch)).path = some q) := by
  obtain ⟨hself, hother⟩ := mayAlias_answers (w := w) (a := a) (v := v) hplain
  refine ⟨hself, fun q hq => ?_⟩
  by_cases hcovers : a.CoversRead v
  · obtain rfl := Option.some.inj ((hself hcovers).symm.trans hq)
    exact ⟨hcovers, .inl rfl⟩
  · obtain ⟨o, f, rfl, hbase, hsteps, hunfolded⟩ := hother hcovers q hq
    obtain ⟨t, stretch, hty, hstretch, hpath⟩ := PathStore.unfolded?_eq_some hunfolded
    obtain ⟨hmem, hfirst⟩ := PathStore.stretch?_eq_some hstretch
    have hpos : 0 < w.paths.rules.settings.length := by
      rcases hmade with rfl | ⟨request, hrequest⟩
      · cases hbase
      · exact (List.length_pos_iff.mpr hsteps).trans_le (PathRules.made_of_canon hrequest).length_le
    obtain ⟨hroot, hfield⟩ := PathRules.firstField?_expansion hbase hfirst hpos hpath
    exact ⟨⟨hroot, .inl hfield⟩, .inr ⟨t, stretch, hty, hmem, hpath⟩⟩

def pathsOnly : Env where
  graph := .ofProgram Program.empty []

def someNode : Local := ⟨0, "x", .cls "Node"⟩

/-- The request for `x.next.extra`, with a node that may hold more. -/
def extraBehindNext : PathRequest where
  value := some (.var someNode)
  steps := [.of PathRules.nextNode, .of PathRules.extraField]

def extraWorld : World where
  paths := ((Paths.make extraBehindNext).run { rules := PathRules.nodeRules }).2

def extraPath : AccessPath where
  base := some someNode
  ty := some (.cls "Node")
  steps := [.of PathRules.extraField]
  cut := true

-- A read of `x.extra` needs nothing in front: the answer is the path itself.
example : (((mayAlias extraPath (.field someNode PathRules.extraField)).run pathsOnly).run
    extraWorld).1.map (·.steps) = some extraPath.steps := by
  decide +kernel

theorem path_canon_of_parts {r : PathRules} {request : PathRequest} {p : AccessPath}
    (h : (r.canon request).path.map (fun p => (p.toPath, p.cut)) = some (p.toPath, p.cut)) :
    (r.canon request).path = some p := by
  obtain ⟨⟨_, _⟩, hp, ⟨⟩⟩ := map_eq_some_iff.mp h
  exact hp

theorem extra_folded : (PathRules.nodeRules.canon extraBehindNext).path = some extraPath :=
  path_canon_of_parts (by decide +kernel)

/-- The read of `x.next` is covered by `x.extra`, with `next` back in front. -/
theorem extra_covers_next : ¬extraPath.CoversRead (.field someNode PathRules.nextNode) ∧ ∃ q,
    (((mayAlias extraPath (.field someNode PathRules.nextNode)).run pathsOnly).run extraWorld).1 =
    some q ∧ q.CoversRead (.field someNode PathRules.nextNode) := by
  obtain ⟨q, hq⟩ := isSome_iff_exists.mp (show
    (((mayAlias extraPath (.field someNode PathRules.nextNode)).run pathsOnly).run
      extraWorld).1.isSome by decide +kernel)
  have hrules : extraWorld.paths.rules = PathRules.nodeRules := PathStore.rules_make _ _
  refine ⟨?_, q, hq, ?_⟩
  · rintro ⟨-, hfirst | ⟨hsteps, -⟩⟩
    · exact absurd hfirst (by decide)
    · cases hsteps
  · exact ((mayAlias_covers_read rfl (.inr ⟨extraBehindNext, by rw [hrules, extra_folded]⟩)).2
      q hq).1

/-! ## Reads of what was folded -/

/-- **A folded path hides a read of its first field exactly if the first stretch that was registered
with this field does not fit in front of it.** There always is such a stretch, whatever was made in
the meantime. -/
theorem folded_read_hidden_iff {s₀ : PathStore} {request : PathRequest} {p : AccessPath} {x : Local}
    {later : List PathRequest} (hplain : e.config.aliasing.isInteractive = false)
    (hvalue : request.value = some (.var x)) (hty : ∀ t ∈ request.ty, t = x.ty)
    (hfirst : request.steps.head?.map (·.field) = some f)
    (houter : ∀ s ∈ request.steps, s.isOuterThis = false) (hdeep : request.deep = true)
    (hcut : request.cutFirst = false) (hlength : 0 < s₀.rules.settings.length)
    (hp : ((Paths.make request).run s₀).1 = some p)
    (hlater : w.paths = ((Paths.make request).run s₀).2.after later) :
    (((mayAlias p (.field x f)).run e).run w).1 = none ↔
      p.reaches f = false ∧ ∃ stretch, w.paths.stretch? x.ty f = some stretch ∧
        ¬s₀.rules.Joins stretch p.steps := by
  rw [Paths.run_make] at hp
  have hrules : w.paths.rules = s₀.rules := by
    rw [hlater, PathStore.rules_after, PathStore.rules_make]
  obtain ⟨hbase, htype, hpdeep⟩ := PathRules.declared_of_canon hvalue hty hdeep hp
  have hanswer := mayAlias_behind (w := w) (f := f) hplain hbase
  unfold World.Ends at hanswer
  rw [hanswer]
  cases hreaches : p.reaches f with
  | true => simp
  | false =>
    have hnot : ¬(p.firstField? = some f ∨ p.steps = [] ∧ p.deep) := by
      rw [← Path.reaches_iff, hreaches]
      exact Bool.false_ne_true
    have hsteps : p.steps ≠ [] := fun h => hnot (.inr ⟨h, hpdeep⟩)
    obtain ⟨stretch, hstretch⟩ : ∃ stretch, w.paths.stretch? x.ty f = some stretch := by
      rcases PathRules.firstField?_or_cut hvalue hfirst houter hcut hlength hp with
        hkept | ⟨t, cut, ht, hmem, hhead⟩
      · exact absurd (.inl hkept) hnot
      · obtain rfl := Option.some.inj (htype.symm.trans ht)
        refine isSome_iff_exists.mp (PathStore.stretch?_isSome ?_ hhead)
        rw [hlater]
        exact PathStore.patterns_after _ _ ((PathStore.patterns_make s₀ request).2 hmem)
    have hunfolded : w.paths.unfolded? p f = (s₀.rules.canon (p.expansion stretch)).path := by
      unfold PathStore.unfolded?
      rw [htype, bind_eq_bind, bind_some, hstretch, hrules]
      rfl
    have hjoins := PathRules.expansion_isSome_iff stretch (PathRules.made_of_canon hp) hbase htype
      hsteps
    rw [if_neg Bool.false_ne_true, if_neg hsteps, hunfolded, ← not_isSome_iff_eq_none, hjoins]
    constructor
    · exact fun h => ⟨rfl, stretch, hstretch, h⟩
    · rintro ⟨-, stretch', hstretch', h⟩
      rwa [Option.some.inj (hstretch.symm.trans hstretch')]

/-- The read of `x.next` is not hidden by folding `x.next.extra`. -/
theorem extra_not_hidden :
    extraPath.reaches PathRules.nextNode = false ∧
      (((mayAlias extraPath (.field someNode PathRules.nextNode)).run pathsOnly).run
        extraWorld).1 ≠ none := by
  have hmade : ((Paths.make extraBehindNext).run { rules := PathRules.nodeRules }).1 =
      some extraPath := by
    rw [Paths.run_make, extra_folded]
  have hnow : extraWorld.paths =
      ((Paths.make extraBehindNext).run { rules := PathRules.nodeRules }).2.after [] := rfl
  refine ⟨by decide, fun hnone => ?_⟩
  obtain ⟨-, stretch, hstretch, hnot⟩ := (folded_read_hidden_iff (e := pathsOnly) rfl rfl
    (by simp [extraBehindNext]) rfl (by decide +kernel) rfl rfl (by decide) hmade hnow).mp hnone
  have hfirst : extraWorld.paths.stretch? someNode.ty PathRules.nextNode =
      some [⟨PathRules.nextNode, .cls "SubNode"⟩] := by
    decide +kernel
  obtain rfl := Option.some.inj (hfirst.symm.trans hstretch)
  exact hnot ⟨fun _ => by decide +kernel, by decide +kernel⟩

/-! ### A file in a folder -/

/-- Folders and files are nodes, and neither is the other. -/
def folderRules : PathRules where
  casts := ⟨⟨[⟨"Node", {}⟩, ⟨"Folder", { superclass := some "Node" }⟩,
    ⟨"File", { superclass := some "Node" }⟩]⟩, true⟩

def parentField : Field := ⟨"Folder", "parent", .cls "Node", false⟩

def textField : Field := ⟨"File", "text", .cls "java.lang.String", false⟩

def textInFolder : PathRequest where
  value := some (.var someNode)
  steps := [.of PathRules.nextNode, .of parentField, .of textField]

def textPath : AccessPath where
  base := some someNode
  ty := some (.cls "Node")
  steps := [.of textField]
  cut := true

/-- **The read is lost.** `x.next.parent.text` is folded to `x.text`, by way of `next` as a folder
and `parent` as a file. The stretch that begins with `next` ends in a folder, and a folder has no
text. -/
theorem text_in_folder_hidden :
    ((Paths.make textInFolder).run { rules := folderRules }).1 = some textPath ∧
      (((mayAlias textPath (.field someNode PathRules.nextNode)).run pathsOnly).run
        { paths := ((Paths.make textInFolder).run { rules := folderRules }).2 }).1 = none := by
  refine ⟨?_, isNone_iff_eq_none.mp (by decide +kernel)⟩
  rw [Paths.run_make]
  exact path_canon_of_parts (by decide +kernel)

end Track
end LeakTrace
