import LeakTrace.Proofs.Derivations
import LeakTrace.Track
import Mathlib.Data.Finset.Card
import Mathlib.Data.Finset.Prod
import Mathlib.Data.Set.Finite.List
import Mathlib.Order.Lattice.Nat

/-!
# What facts can mention

A vocabulary is a finite supply of locals, fields, types, statements, branch ends and definitions,
with a bound on the dimensions of arrays and on the length of chains. What is `Over` a vocabulary is
built from it. Each of the parts of a taint that could grow has its own reason not to: chains are
cut, arrays are nested up to a limit, and no branch is entered twice.

**So a vocabulary has finitely many taints**, and finitely many edges.
-/

namespace LeakTrace
open List

variable {α : Type}

structure Vocabulary where
  locals : Finset Local
  fields : Finset Field
  /-- The types that arrays are made of. -/
  kinds : Finset Ty
  /-- How many dimensions an array has at most. -/
  dims : Nat
  /-- How long a chain of steps is at most. -/
  length : Nat
  stmts : Finset StmtId
  joins : Finset Join
  definitions : Finset Definition
  /-- What sources pass on. -/
  data : Finset (Option String)
  /-- How often a branch is entered again. -/
  repeats : Nat

variable {V : Vocabulary}

theorem all_none {P : α → Prop} : ∀ a ∈ (none : Option α), P a :=
  fun _ h => nomatch h

/-! ## Types -/

namespace Ty
variable {t u : Ty}

def Over (V : Vocabulary) (t : Ty) : Prop := t.innermost ∈ V.kinds ∧ t.dimensions ≤ V.dims

theorem over_array : Over V (.array t) ↔ t.innermost ∈ V.kinds ∧ t.dimensions + 1 ≤ V.dims :=
  Iff.rfl

theorem Over.element (h : t.Over V) (hu : t.element? = some u) : u.Over V := by
  cases t with
  | array e =>
    cases hu
    exact ⟨h.1, Nat.le_of_succ_le h.2⟩
  | _ => cases hu

theorem Over.addDimension {array : Ty} (h : t.Over V) (harray : array.Over V)
    (hmax : maxDimensions ≤ V.dims) (hu : t.addDimension? array = some u) : u.Over V := by
  unfold addDimension? at hu
  split at hu
  · cases hu
    exact harray
  · split at hu
    · cases hu
    · next hdim =>
      cases hu
      refine over_array.mpr ⟨h.1, ?_⟩
      omega

theorem eq_iterate (t : Ty) : t = Ty.array^[t.dimensions] t.innermost := by
  induction t with
  | array e ih =>
    change Ty.array e = Ty.array^[e.dimensions + 1] e.innermost
    rw [Function.iterate_succ_apply', ← ih]
  | _ => rfl

theorem finite_over (V : Vocabulary) : {t : Ty | t.Over V}.Finite := by
  refine ((V.kinds ×ˢ Finset.range (V.dims + 1)).finite_toSet.image
    fun p => Ty.array^[p.2] p.1).subset ?_
  rintro t ⟨hkind, hdims⟩
  refine ⟨(t.innermost, t.dimensions), ?_, t.eq_iterate.symm⟩
  have hdims : t.dimensions ∈ Finset.range (V.dims + 1) := Finset.mem_range.mpr (by omega)
  exact Finset.mem_coe.mpr (Finset.mk_mem_product hkind hdims)

end Ty

/-! ## Paths -/

structure Step.Over (V : Vocabulary) (s : Step) : Prop where
  field : s.field ∈ V.fields
  ty : s.ty.Over V

structure Path.Over (V : Vocabulary) (p : Path) : Prop where
  base : ∀ l ∈ p.base, l ∈ V.locals
  ty : ∀ t ∈ p.ty, Ty.Over V t
  steps : ∀ s ∈ p.steps, Step.Over V s
  length : p.steps.length ≤ V.length

theorem Path.over_empty : Path.empty.Over V :=
  ⟨all_none, all_none, forall_mem_nil _, Nat.zero_le _⟩

theorem Step.finite_over (V : Vocabulary) : {s : Step | s.Over V}.Finite := by
  refine ((V.fields.finite_toSet.prod (Ty.finite_over V)).image fun p => (⟨p.1, p.2⟩ : Step)).subset ?_
  rintro s ⟨hfield, hty⟩
  exact ⟨(s.field, s.ty), ⟨hfield, hty⟩, rfl⟩

theorem finite_option {S : Set α} (hS : S.Finite) : {x : Option α | ∀ a ∈ x, a ∈ S}.Finite := by
  refine ((hS.image some).insert none).subset fun x hx => ?_
  cases x with
  | none => exact .inl rfl
  | some a => exact .inr ⟨a, hx a rfl, rfl⟩

theorem finite_lists {S : Set α} (hS : S.Finite) (n : Nat) :
    {l : List α | l.length ≤ n ∧ ∀ x ∈ l, x ∈ S}.Finite := by
  have : Finite S := hS.to_subtype
  refine ((finite_length_le S n).image (List.map Subtype.val)).subset ?_
  rintro l ⟨hlen, hl⟩
  exact ⟨l.attachWith (· ∈ S) hl, by simpa using hlen, by simp⟩

theorem Path.finite_over (V : Vocabulary) : {p : Path | p.Over V}.Finite := by
  have hparts := (finite_option V.locals.finite_toSet).prod <|
    (finite_option (Ty.finite_over V)).prod <|
      (finite_lists (Step.finite_over V) V.length).prod <|
        ((Set.finite_range (fun b : Bool => b)).prod <|
          ((finite_toSet [ArrayPart.contents, .length, .both]).prod
            (Set.finite_range (fun b : Bool => b))))
  refine (hparts.image fun x => ⟨x.1, x.2.1, x.2.2.1, x.2.2.2.1, x.2.2.2.2.1, x.2.2.2.2.2⟩).subset ?_
  rintro ⟨base, ty, steps, deep, part, immutable⟩ ⟨hbase, hty, hsteps, hlen⟩
  refine ⟨(base, ty, steps, deep, part, immutable), ⟨hbase, hty, ⟨hlen, hsteps⟩, ⟨deep, rfl⟩, ?_,
    ⟨immutable, rfl⟩⟩, rfl⟩
  cases part <;> simp

/-! ## Taints -/

structure Origin.Over (V : Vocabulary) (o : Origin) : Prop where
  definition : o.definition ∈ V.definitions
  path : o.path.Over V
  stmt : o.stmt ∈ V.stmts
  data : o.data ∈ V.data

structure Taint.Over (V : Vocabulary) (t : Taint) : Prop where
  path : t.path.Over V
  origin : ∀ o ∈ t.origin, Origin.Over V o
  waitsFor : ∀ s ∈ t.waitsFor, s ∈ V.stmts
  turn : ∀ s ∈ t.turn, s ∈ V.stmts
  joins : ∀ j ∈ t.joins, j ∈ V.joins
  repeats : t.joins.length ≤ t.joins.toFinset.card + V.repeats

theorem Origin.finite_over (V : Vocabulary) : {o : Origin | o.Over V}.Finite := by
  have hparts := V.definitions.finite_toSet.prod <|
    (Path.finite_over V).prod (V.stmts.finite_toSet.prod V.data.finite_toSet)
  refine (hparts.image fun x => (⟨x.1, x.2.1, x.2.2.1, x.2.2.2⟩ : Origin)).subset ?_
  rintro ⟨definition, path, stmt, data⟩ ⟨hdef, hpath, hstmt, hdata⟩
  exact ⟨(definition, path, stmt, data), ⟨hdef, hpath, hstmt, hdata⟩, rfl⟩

theorem Taint.Over.length_joins {t : Taint} (h : t.Over V) :
    t.joins.length ≤ V.joins.card + V.repeats := by
  refine h.repeats.trans (Nat.add_le_add_right ?_ _)
  exact Finset.card_le_card fun j hj => h.joins j (List.mem_toFinset.mp hj)

theorem Taint.finite_over (V : Vocabulary) : {t : Taint | t.Over V}.Finite := by
  have hbool := Set.finite_range (fun b : Bool => b)
  have hstmt := finite_option V.stmts.finite_toSet
  have hparts := (Path.finite_over V).prod <| (finite_option (Origin.finite_over V)).prod <|
    hstmt.prod <| hstmt.prod <| hbool.prod <| hbool.prod <|
      (finite_lists V.joins.finite_toSet (V.joins.card + V.repeats)).prod hbool
  refine (hparts.image fun x => ⟨x.1, x.2.1, x.2.2.1, x.2.2.2.1, x.2.2.2.2.1, x.2.2.2.2.2.1,
    x.2.2.2.2.2.2.1, x.2.2.2.2.2.2.2⟩).subset ?_
  rintro t ht
  refine ⟨(t.path, t.origin, t.waitsFor, t.turn, t.thrown, t.implicit, t.joins, t.cutDependent),
    ?_, rfl⟩
  exact Set.mk_mem_prod ht.path <| Set.mk_mem_prod ht.origin <| Set.mk_mem_prod ht.waitsFor <|
    Set.mk_mem_prod ht.turn <| Set.mk_mem_prod (Set.mem_range_self _) <|
      Set.mk_mem_prod (Set.mem_range_self _) <|
        Set.mk_mem_prod ⟨ht.length_joins, ht.joins⟩ (Set.mem_range_self _)

/-! ## Facts -/

namespace Fact

/-- History does not count. -/
def Over (V : Vocabulary) (f : Fact) : Prop := f.toTaint.Over V

variable {f : Fact} {a : AccessPath} {n : Nat}

theorem over_zero (n : Nat) : (Fact.zero n).Over V :=
  ⟨Path.over_empty, all_none, all_none, all_none, forall_mem_nil _,
    Nat.zero_le _⟩

section
variable (h : f.Over V) {stmt : Option StmtId} {p : Option AccessPath} {implicit : Bool}
  {unit call : StmtId}
include h

theorem Over.next : (f.next n).Over V := { h with }

theorem Over.move (ha : a.toPath.Over V) : (f.move n a stmt).Over V := by
  unfold Fact.move
  split
  · exact h.next (n := n)
  · refine ⟨ha, all_none, h.waitsFor, all_none, ?_, ?_⟩
    · dsimp only
      split
      · exact h.joins
      · exact forall_mem_nil _
    · dsimp only
      split
      · exact h.repeats
      · exact Nat.zero_le _

theorem Over.derive? (hp : ∀ a ∈ p, Path.Over V a.toPath) :
    ∀ g ∈ f.derive? n p stmt implicit, Fact.Over V g := by
  intro g hg
  obtain ⟨a, ha, rfl⟩ := Option.map_eq_some_iff.mp hg
  have hm : (f.move n a stmt).Over V := h.move (hp a ha)
  exact { hm with }

theorem Over.deriveAs? (hp : ∀ a ∈ p, Path.Over V a.toPath) :
    ∀ g ∈ f.deriveAs? n p stmt implicit, Fact.Over V g := by
  intro g hg
  unfold Fact.deriveAs? at hg
  split at hg
  · split at hg
    · cases hg
      exact h
    · exact h.derive? hp g hg
  · cases hg

theorem Over.deactivate (hunit : unit ∈ V.stmts) {deferred : Bool} :
    (f.deactivate n unit deferred).Over V := by
  unfold Fact.deactivate
  split
  · exact h
  · have hm : (f.move n f.accessPath none).Over V := h.move h.path
    refine ⟨hm.path, hm.origin, ?_, hm.turn, forall_mem_nil _, Nat.zero_le _⟩
    rintro s ⟨⟩
    exact hunit

theorem Over.activate : (f.activate n).Over V := by
  unfold Fact.activate
  split
  · exact h
  · exact { h with origin := all_none, waitsFor := all_none }

theorem Over.turnAt (hunit : unit ∈ V.stmts) : (f.turnAt n unit).Over V := by
  unfold Fact.turnAt
  split
  · exact h
  · refine { h with origin := all_none, turn := ?_ }
    rintro s ⟨⟩
    exact hunit

theorem Over.throwAt {stmt : StmtId} : (f.throwAt n stmt).Over V :=
  { h with origin := all_none }

theorem Over.catchInto? (hp : ∀ a ∈ p, Path.Over V a.toPath) :
    ∀ g ∈ f.catchInto? n p, Fact.Over V g := by
  intro g hg
  obtain ⟨a, ha, rfl⟩ := Option.map_eq_some_iff.mp hg
  have hm : (f.move n a none).Over V := h.move (hp a ha)
  exact { hm with }

theorem Over.enterConditional {join : Join} (hjoin : join ∈ V.joins) {stmt : StmtId} :
    (f.enterConditional n join stmt).Over V := by
  unfold Fact.enterConditional
  split
  · exact h
  · next hnew =>
    have hm : (f.move n AccessPath.empty (some stmt)).Over V := h.move Path.over_empty
    refine { hm with joins := ?_, repeats := ?_ }
    · intro j hj
      rcases mem_cons.mp hj with rfl | hj
      · exact hjoin
      · exact hm.joins j hj
    · have hjoin : join ∉ (f.move n AccessPath.empty (some stmt)).joins.toFinset := by
        simpa using hnew
      have := hm.repeats
      rw [toFinset_cons, Finset.card_insert_of_notMem hjoin, length_cons]
      omega

theorem Over.callConditional : (f.callConditional n call).Over V := by
  have hm : (f.move n AccessPath.empty (some call)).Over V := h.move Path.over_empty
  exact { hm with joins := forall_mem_nil _, repeats := Nat.zero_le _ }

theorem Over.withCall : (f.withCall n call).Over V := h

end

theorem over_ofSource {o : Origin} (ho : o.Over V) {cut thrown implicit : Bool} :
    (Fact.ofSource n o cut thrown implicit).Over V := by
  refine ⟨ho.path, ?_, all_none, all_none, forall_mem_nil _, Nat.zero_le _⟩
  rintro _ ⟨⟩
  exact ho

end Fact
end LeakTrace
