import LeakTrace.Flow.Forward
import Mathlib.Data.List.Forall2

/-!
# Two runs side by side

Two facts can say the same and have come about differently. To see what flow functions make of that,
two runs are compared step by step: `Track.Alike x y R` says that from worlds that are alike, `x` and
`y` end in values related by `R`, and in worlds that are alike again.

**What counts as alike.** Facts agree in what they say and in the two parts of their history that
derivations read: the statement they were derived at, and whether their path was cut. Their
identities are `Paired`: the fact that came in is `b.1` in one run and `b.2` in the other, and
facts that are made on the way have one identity in both.
Worlds agree in everything that is read while tracking, which leaves out the outbox and the
neighbours of facts.
-/

namespace LeakTrace
open List Track

variable {e : Env} {b : Nat × Nat} {f g : World → World}

/-! ## Facts -/

/-- The facts say the same, were derived at the same statement, and were cut or not together. Their
identities are related. -/
structure Fact.AlikeBy (R : Nat → Nat → Prop) (f g : Fact) : Prop where
  taint : f.toTaint = g.toTaint
  cut : f.cut = g.cut
  stmt : f.stmt = g.stmt
  id : R f.id g.id

/-- The identities of the incoming facts, or one that neither of them has. -/
def Paired (b : Nat × Nat) (i j : Nat) : Prop :=
  i = b.1 ∧ j = b.2 ∨ i = j ∧ i ≠ b.1 ∧ i ≠ b.2

abbrev Fact.Alike (b : Nat × Nat) (f g : Fact) : Prop := f.AlikeBy (Paired b) g

theorem Fact.Alike.is_eq {f g f' g' : Fact} (h : f.Alike b g) (h' : f'.Alike b g') :
    f.is f' = g.is g' := by
  have hid := h.id
  have hid' := h'.id
  unfold Fact.is
  unfold Paired at hid hid'
  rw [Bool.eq_iff_iff, beq_iff_eq, beq_iff_eq]
  omega

namespace Fact.AlikeBy
variable {R : Nat → Nat → Prop} {f g : Fact} {n k : Nat} (h : f.AlikeBy R g)
include h

theorem accessPath : f.accessPath = g.accessPath := by
  unfold Fact.accessPath
  rw [h.taint, h.cut]

theorem aliasTarget? : f.aliasTarget? = g.aliasTarget? := by
  unfold Fact.aliasTarget?
  rw [h.taint]

variable (hn : R n k)
include hn

theorem move (a : AccessPath) (s : Option StmtId) : (f.move n a s).AlikeBy R (g.move k a s) := by
  unfold Fact.move
  rw [h.taint, h.stmt]
  split
  · exact ⟨h.taint, h.cut, rfl, hn⟩
  · refine ⟨?_, rfl, rfl, hn⟩
    simp only [Fact.next, h.taint]

section
variable (a : Option AccessPath) (s : Option StmtId) (i : Bool)
include a s i

theorem derive? : Option.Rel (AlikeBy R) (f.derive? n a s i) (g.derive? k a s i) := by
  cases a with
  | none => exact .none
  | some a =>
    have hm := h.move hn a s
    refine .some ⟨?_, hm.cut, hm.stmt, hm.id⟩
    change { (f.move n a s).toTaint with implicit := i } = _
    rw [hm.taint]

theorem deriveAs? : Option.Rel (AlikeBy R) (f.deriveAs? n a s i) (g.deriveAs? k a s i) := by
  cases a with
  | none => exact .none
  | some a =>
    unfold Fact.deriveAs?
    rw [h.taint, h.stmt]
    dsimp only
    split
    · exact .some h
    · exact h.derive? hn _ s i

end

theorem deactivate (u : StmtId) (d : Bool) :
    (f.deactivate n u d).AlikeBy R (g.deactivate k u d) := by
  unfold Fact.deactivate
  rw [h.taint]
  split
  · exact h
  · have hm := h.move hn f.accessPath none
    rw [← h.accessPath]
    refine ⟨?_, hm.cut, hm.stmt, hm.id⟩
    simp only [hm.taint, hm.cut]

theorem activate : (f.activate n).AlikeBy R (g.activate k) := by
  unfold Fact.activate
  rw [h.taint]
  split
  · exact h
  · refine ⟨?_, h.cut, rfl, hn⟩
    simp only [Fact.next, h.taint]

theorem throwAt (s : StmtId) : (f.throwAt n s).AlikeBy R (g.throwAt k s) := by
  refine ⟨?_, h.cut, rfl, hn⟩
  simp only [Fact.throwAt, Fact.next, h.taint]

theorem catchInto? (a : Option AccessPath) :
    Option.Rel (AlikeBy R) (f.catchInto? n a) (g.catchInto? k a) := by
  cases a with
  | none => exact .none
  | some a =>
    have hm := h.move hn a none
    refine .some ⟨?_, hm.cut, hm.stmt, hm.id⟩
    change { (f.move n a none).toTaint with thrown := false } = _
    rw [hm.taint]

theorem enterConditional (j : Join) (s : StmtId) :
    (f.enterConditional n j s).AlikeBy R (g.enterConditional k j s) := by
  unfold Fact.enterConditional
  rw [h.taint]
  split
  · exact h
  · have hm := h.move hn AccessPath.empty (some s)
    refine ⟨?_, hm.cut, hm.stmt, hm.id⟩
    simp only [hm.taint]

theorem callConditional (s : StmtId) :
    (f.callConditional n s).AlikeBy R (g.callConditional k s) := by
  have hm := h.move hn AccessPath.empty (some s)
  refine ⟨?_, hm.cut, hm.stmt, hm.id⟩
  simp only [Fact.callConditional, hm.taint]

theorem withCall (s : StmtId) : (f.withCall n s).AlikeBy R (g.withCall k s) :=
  ⟨h.taint, h.cut, h.stmt, hn⟩

end Fact.AlikeBy

/-! ## Sets of facts -/

abbrev FactSet.Alike (b : Nat × Nat) (s t : FactSet) : Prop := List.Forall₂ (Fact.Alike b) s t

abbrev FactSet.AlikeOpt (b : Nat × Nat) : Option FactSet → Option FactSet → Prop :=
  Option.Rel (FactSet.Alike b)

namespace FactSet
variable {s t : FactSet} {f g : Fact}

theorem Alike.taints (h : Alike b s t) : s.map (·.toTaint) = t.map (·.toTaint) := by
  induction h with
  | nil => rfl
  | cons hfg _ ih => rw [map_cons, map_cons, hfg.taint, ih]

theorem forall₂_of_map_eq {ds ds' : List Fact} (h : ds.map (·.toTaint) = ds'.map (·.toTaint)) :
    List.Forall₂ (fun d d' => d.toTaint = d'.toTaint) ds ds' := by
  have h' : List.Forall₂ Eq (ds.map (·.toTaint)) (ds'.map (·.toTaint)) := h ▸ forall₂_refl _
  simpa only [forall₂_map_left_iff, forall₂_map_right_iff] using h'

theorem contains_eq (s : FactSet) (f : Fact) :
    s.contains f = (s.map (·.toTaint)).any (f.toTaint == ·) := by
  rw [List.any_map]
  rfl

section
variable (h : Alike b s t)
include h

theorem Alike.contains (hf : f.toTaint = g.toTaint) : s.contains f = t.contains g := by
  rw [contains_eq, contains_eq, h.taints, hf]

theorem Alike.append {s' t' : FactSet} (h' : Alike b s' t') : Alike b (s ++ s') (t ++ t') := by
  induction h with
  | nil => exact h'
  | cons hfg _ ih => exact .cons hfg ih

theorem Alike.insert (hf : f.Alike b g) : Alike b (s.insert f) (t.insert g) := by
  unfold FactSet.insert
  rw [h.contains hf.taint]
  split
  · exact h
  · exact h.append (.cons hf .nil)

theorem Alike.insertAll {l l' : List Fact} (hl : Alike b l l') :
    Alike b (s.insertAll l) (t.insertAll l') := by
  unfold FactSet.insertAll
  induction hl generalizing s t with
  | nil => exact h
  | cons hfg _ ih => exact ih (h.insert hfg)

end

theorem Alike.toList {f g : Option Fact} (h : Option.Rel (Fact.Alike b) f g) :
    Alike b f.toList g.toList := by
  cases h with
  | none => exact .nil
  | some hfg => exact .cons hfg .nil

theorem Alike.getD {s t : Option FactSet} (h : Option.Rel (Alike b) s t) :
    Alike b (s.getD []) (t.getD []) := by
  cases h with
  | none => exact .nil
  | some hst => exact hst

theorem Alike.find? (h : Alike b s t) (p : Fact → Bool) (q : Fact → Bool)
    (hpq : ∀ {f g : Fact}, f.Alike b g → p f = q g) :
    Option.Rel (Fact.Alike b) (s.find? p) (t.find? q) := by
  induction h with
  | nil => exact .none
  | cons hfg _ ih =>
    rw [find?_cons, find?_cons, hpq hfg]
    split
    · exact .some hfg
    · exact ih

end FactSet

/-! ## Worlds -/

/-- What a result says, whatever its fact's history. -/
def SinkHit.said (h : SinkHit) : Definition × StmtId × Taint := (h.definition, h.stmt, h.fact.toTaint)

/-- The worlds agree in what tracking reads. -/
structure World.Alike (b : Nat × Nat) (w w' : World) : Prop where
  nextId : w.nextId = w'.nextId
  known : b.1 < w.nextId ∧ b.2 < w.nextId
  paths : w.paths = w'.paths
  results : w.results.map SinkHit.said = w'.results.map SinkHit.said
  reported : w.reported = w'.reported
  globals : w.globals.map (·.toTaint) = w'.globals.map (·.toTaint)
  activations : w.activations = w'.activations
  searched : w.searched = w'.searched
  aborted : w.aborted = w'.aborted
  rules : w.rules = w'.rules

theorem SinkHit.same_eq_beq_said (h k : SinkHit) : h.same k = (h.said == k.said) := by
  rw [Bool.eq_iff_iff]
  simp only [SinkHit.same, SinkHit.said, Fact.same, Bool.and_eq_true, beq_iff_eq, Prod.mk.injEq,
    and_assoc]

namespace World.Alike
variable {w w' : World} {h k : SinkHit}

theorem refl (h : b.1 < w.nextId) (h' : b.2 < w.nextId) : World.Alike b w w :=
  ⟨rfl, ⟨h, h'⟩, rfl, rfl, rfl, rfl, rfl, rfl, rfl, rfl⟩

variable (hw : World.Alike b w w')
include hw

theorem addNeighbor (f f' g g' : Fact) (m : Bool) :
    World.Alike b (w.addNeighbor f g m).2 (w'.addNeighbor f' g' m).2 := by
  have hsame (v : World) (f g : Fact) :
      ∃ n, (v.addNeighbor f g m).2 = { v with neighbors := n } := by
    unfold World.addNeighbor
    dsimp only
    split
    · exact ⟨v.neighbors, rfl⟩
    · exact ⟨_, rfl⟩
  obtain ⟨n, hn⟩ := hsame w f g
  obtain ⟨n', hn'⟩ := hsame w' f' g'
  rw [hn, hn']
  exact { hw with }

theorem results_length : w.results.length = w'.results.length := by
  simpa only [length_map] using congrArg List.length hw.results

theorem isSome_find? (hk : h.said = k.said) :
    (w.results.find? h.same).isSome = (w'.results.find? k.same).isSome := by
  have hany (l : List SinkHit) (h : SinkHit) :
      (l.find? h.same).isSome = (l.map SinkHit.said).any (h.said == ·) := by
    rw [Bool.eq_iff_iff, find?_isSome, List.any_map, List.any_eq_true]
    simp only [h.same_eq_beq_said, Function.comp_apply]
  rw [hany, hany, hw.results, hk]

/-- A result is new in both worlds, or a neighbour of an old one in both. -/
theorem addHit (hk : h.said = k.said) :
    World.Alike b
      (match w.results.find? h.same with
        | some old => (w.addNeighbor old.fact h.fact false).2
        | none => { w with results := w.results ++ [h] })
      (match w'.results.find? k.same with
        | some old => (w'.addNeighbor old.fact k.fact false).2
        | none => { w' with results := w'.results ++ [k] }) := by
  have hsome := hw.isSome_find? hk
  cases hold : w.results.find? h.same with
  | some old =>
    rw [hold] at hsome
    obtain ⟨old', hold'⟩ := Option.isSome_iff_exists.mp hsome.symm
    rw [hold']
    exact hw.addNeighbor _ _ _ _ _
  | none =>
    rw [hold] at hsome
    rw [Option.isSome_eq_false_iff.mp hsome.symm |> Option.isNone_iff_eq_none.mp]
    refine { hw with results := ?_ }
    rw [map_append, map_append, hw.results, map_singleton, map_singleton, hk]

end World.Alike

/-! ## Tracking -/

/-- From worlds that are alike, the two actions end in related values and in worlds that are alike. -/
def Track.Alike (e : Env) (b : Nat × Nat) {α β : Type} (x : Track α) (y : Track β)
    (R : α → β → Prop) : Prop :=
  ∀ w w', World.Alike b w w' →
    R ((x.run e).run w).1 ((y.run e).run w').1 ∧
      World.Alike b ((x.run e).run w).2 ((y.run e).run w').2

/-- The action does not tell worlds apart that are alike. -/
abbrev Track.Steady (e : Env) (b : Nat × Nat) {α : Type} (x : Track α) : Prop :=
  Track.Alike e b x x Eq

namespace Track.Alike
variable {α β γ δ : Type} {x : Track α} {y : Track β} {R : α → β → Prop} {S : γ → δ → Prop}

theorem pure {a : α} {a' : β} (h : R a a') : Alike e b (pure a) (pure a') R :=
  fun _ _ hw => ⟨h, hw⟩

theorem bind {f : α → Track γ} {g : β → Track δ} (h : Alike e b x y R)
    (hf : ∀ a a', R a a' → Alike e b (f a) (g a') S) : Alike e b (x >>= f) (y >>= g) S := by
  intro w w' hw
  obtain ⟨hr, hw'⟩ := h w w' hw
  exact hf _ _ hr _ _ hw'

/-- Where the first two actions give the same value, the rest is compared for that value. -/
theorem bind_eq {y : Track α} {f : α → Track γ} {g : α → Track δ}
    (h : Alike e b x y Eq) (hf : ∀ a, Alike e b (f a) (g a) S) : Alike e b (x >>= f) (y >>= g) S :=
  h.bind fun a _ ha => ha ▸ hf a

/-- The first two actions both give nothing, or give values that are related. -/
theorem bind_option {x : Track (Option α)} {y : Track (Option β)} {f : Option α → Track γ}
    {g : Option β → Track δ} (h : Alike e b x y (Option.Rel R))
    (hnone : Alike e b (f none) (g none) S)
    (hsome : ∀ a a', R a a' → Alike e b (f (some a)) (g (some a')) S) :
    Alike e b (x >>= f) (y >>= g) S := by
  refine h.bind fun _ _ hr => ?_
  cases hr with
  | none => exact hnone
  | some hr => exact hsome _ _ hr

theorem mono {R' : α → β → Prop} (h : Alike e b x y R)
    (hr : ∀ a a', R a a' → R' a a') : Alike e b x y R' := by
  intro w w' hw
  obtain ⟨h', hw'⟩ := h w w' hw
  exact ⟨hr _ _ h', hw'⟩

protected theorem read {f : Env → Track γ} {g : Env → Track δ} (h : Alike e b (f e) (g e) S) :
    Alike e b (read >>= f) (read >>= g) S :=
  fun w w' hw => h w w' hw

protected theorem get {f : World → Track γ} {g : World → Track δ}
    (h : ∀ w w', World.Alike b w w' → Alike e b (f w) (g w') S) :
    Alike e b (get >>= f) (get >>= g) S :=
  fun w w' hw => h w w' hw w w' hw

theorem modify (h : ∀ w w', World.Alike b w w' → World.Alike b (f w) (g w')) :
    Alike e b (modify f : Track Unit) (modify g) Eq :=
  fun w w' hw => ⟨rfl, h w w' hw⟩

theorem paths (act : Paths α) : Steady e b (Track.paths act) := by
  intro w w' hw
  have hval : (act.run w.paths).1 = (act.run w'.paths).1 := by rw [hw.paths]
  have hstore : (act.run w.paths).2 = (act.run w'.paths).2 := by rw [hw.paths]
  exact ⟨hval, { hw with paths := hstore }⟩

/-- A new identity is the same in both runs, and new to both. -/
theorem fresh_bind {f : Nat → Track γ} {g : Nat → Track δ}
    (h : ∀ n, Paired b n n → Alike e b (f n) (g n) S) :
    Alike e b (fresh >>= f) (fresh >>= g) S := by
  intro w w' hw
  have hnew : Paired b w.nextId w.nextId :=
    .inr ⟨rfl, Nat.ne_of_gt hw.known.1, Nat.ne_of_gt hw.known.2⟩
  have hstep : World.Alike b { w with nextId := w.nextId + 1 }
      { w' with nextId := w'.nextId + 1 } :=
    { hw with
      nextId := congrArg (· + 1) hw.nextId
      known := ⟨Nat.lt_succ_of_lt hw.known.1, Nat.lt_succ_of_lt hw.known.2⟩ }
  have hsame : g w.nextId = g w'.nextId := by rw [hw.nextId]
  have hrest := h w.nextId hnew _ _ hstep
  rw [hsame] at hrest
  exact hrest

theorem send (m m' : Message) : Alike e b (Track.send m) (Track.send m') Eq :=
  modify fun _ _ hw => { hw with }

theorem ite {c : Prop} [Decidable c] {x' : Track α} {y' : Track β} (ht : Alike e b x y R)
    (he : Alike e b x' y' R) : Alike e b (if c then x else x') (if c then y else y') R := by
  by_cases hc : c
  · rw [if_pos hc, if_pos hc]
    exact ht
  · rw [if_neg hc, if_neg hc]
    exact he

/-! ### Loops -/

theorem foldlM₂ {P : α → β → Prop} {f : γ → α → Track γ} {g : δ → β → Track δ} {l : List α}
    {l' : List β} (hl : List.Forall₂ P l l')
    (hstep : ∀ s s' a a', P a a' → S s s' → Alike e b (f s a) (g s' a') S) {s : γ} {s' : δ}
    (hs : S s s') : Alike e b (l.foldlM f s) (l'.foldlM g s') S := by
  induction hl generalizing s s' with
  | nil => exact pure hs
  | cons ha _ ih =>
    rw [foldlM_cons, foldlM_cons]
    exact (hstep _ _ _ _ ha hs).bind fun _ _ => ih

theorem foldlM {f : γ → α → Track γ} {g : δ → α → Track δ} (l : List α)
    (hstep : ∀ s s' a, S s s' → Alike e b (f s a) (g s' a) S) {s : γ} {s' : δ}
    (hs : S s s') : Alike e b (l.foldlM f s) (l.foldlM g s') S :=
  foldlM₂ (P := Eq) (forall₂_refl l) (fun s s' a _ ha hs => ha ▸ hstep s s' a hs) hs

theorem forIn {f g : α → γ → Track (ForInStep γ)} (l : List α)
    (hstep : ∀ a s, Alike e b (f a s) (g a s) Eq) (s : γ) :
    Alike e b (forIn l s f) (forIn l s g) Eq := by
  induction l generalizing s with
  | nil => exact pure rfl
  | cons a l ih =>
    rw [forIn_cons, forIn_cons]
    refine (hstep a s).bind_eq fun step => ?_
    cases step with
    | done s => exact pure rfl
    | yield s => exact ih s

theorem mapM₂ {P : α → β → Prop} {f : α → Track γ} {g : β → Track δ} {l : List α} {l' : List β}
    (hl : List.Forall₂ P l l') (hstep : ∀ a a', P a a' → Alike e b (f a) (g a') S) :
    Alike e b (l.mapM f) (l'.mapM g) (List.Forall₂ S) := by
  induction hl with
  | nil => exact pure .nil
  | cons ha _ ih =>
    rw [mapM_cons, mapM_cons]
    exact (hstep _ _ ha).bind fun _ _ hc => ih.bind fun _ _ hcs => pure (.cons hc hcs)

theorem mapM {f : α → Track γ} (l : List α) (hstep : ∀ a, Steady e b (f a)) :
    Steady e b (l.mapM f) :=
  (mapM₂ (P := Eq) (forall₂_refl l) fun a _ ha => ha ▸ hstep a).mono fun _ _ h =>
    forall₂_eq_eq_eq ▸ h

theorem filterMapM {f g : α → Track (Option γ)} (l : List α)
    (hstep : ∀ a, Alike e b (f a) (g a) Eq) : Alike e b (l.filterMapM f) (l.filterMapM g) Eq := by
  induction l with
  | nil => exact pure rfl
  | cons a l ih =>
    rw [filterMapM_cons, filterMapM_cons]
    refine (hstep a).bind_eq fun c => ?_
    cases c with
    | none => exact ih
    | some c => exact ih.bind_eq fun _ => pure rfl

end Track.Alike

/-! ## Rules -/

/-- Also, the two runs ask to drop the same. -/
def RuleM.Alike (e : Env) (b : Nat × Nat) {α β : Type} (x : RuleM α) (y : RuleM β)
    (R : α → β → Prop) : Prop :=
  ∀ k : Kill, Track.Alike e b (x.run k) (y.run k) fun p q => R p.1 q.1 ∧ p.2 = q.2

namespace RuleM.Alike
variable {α β γ δ : Type} {x : RuleM α} {y : RuleM β} {R : α → β → Prop} {S : γ → δ → Prop}
  {c : Prop}

theorem pure {a : α} {a' : β} (h : R a a') : Alike e b (pure a) (pure a') R :=
  fun _ => .pure ⟨h, rfl⟩

theorem run_bind {f : α × Kill → Track γ} {g : β × Kill → Track δ} (h : Alike e b x y R)
    {k : Kill} (hf : ∀ a a' k, R a a' → Track.Alike e b (f (a, k)) (g (a', k)) S) :
    Track.Alike e b (x.run k >>= f) (y.run k >>= g) S := by
  refine (h k).bind ?_
  rintro ⟨a, k⟩ ⟨a', k'⟩ ⟨ha, hk⟩
  obtain rfl : k = k' := hk
  exact hf a a' k ha

theorem bind {f : α → RuleM γ} {g : β → RuleM δ} (h : Alike e b x y R)
    (hf : ∀ a a', R a a' → Alike e b (f a) (g a') S) :
    Alike e b (x >>= f) (y >>= g) S := by
  intro k
  rw [StateT.run_bind, StateT.run_bind]
  exact h.run_bind fun a a' k ha => hf a a' ha k

theorem bind_eq {y : RuleM α} {f : α → RuleM γ} {g : α → RuleM δ} (h : Alike e b x y Eq)
    (hf : ∀ a, Alike e b (f a) (g a) S) : Alike e b (x >>= f) (y >>= g) S :=
  h.bind fun a _ ha => ha ▸ hf a

theorem ite [Decidable c] {x' : RuleM α} {y' : RuleM β} (ht : Alike e b x y R)
    (he : Alike e b x' y' R) :
    Alike e b (if c then x else x') (if c then y else y') R := by
  by_cases hc : c
  · rw [if_pos hc, if_pos hc]
    exact ht
  · rw [if_neg hc, if_neg hc]
    exact he

theorem optional [Decidable c] {x y : RuleM Unit} {u : RuleM γ} {v : RuleM δ}
    (h : Alike e b x y Eq) (hrest : Alike e b u v S) :
    Alike e b (if c then x >>= fun _ => u else u) (if c then y >>= fun _ => v else v) S :=
  .ite (h.bind_eq fun _ => hrest) hrest

theorem lift {x : Track α} {y : Track β} (h : Track.Alike e b x y R) :
    Alike e b (liftM x) (liftM y) R := by
  intro k
  change Track.Alike e b (x >>= fun a => Pure.pure (a, k)) (y >>= fun a => Pure.pure (a, k)) _
  exact h.bind fun _ _ ha => .pure ⟨ha, rfl⟩

protected theorem read {f : Env → RuleM γ} {g : Env → RuleM δ} (h : Alike e b (f e) (g e) S) :
    Alike e b (read >>= f) (read >>= g) S :=
  fun k => h k

theorem getWorld_bind {f : World → RuleM γ} {g : World → RuleM δ}
    (h : ∀ w w', World.Alike b w w' → Alike e b (f w) (g w') S) :
    Alike e b (getThe World >>= f) (getThe World >>= g) S :=
  fun k w w' hw => h w w' hw k w w' hw

theorem getKill_bind {f : Kill → RuleM γ} {g : Kill → RuleM δ}
    (h : ∀ k, Alike e b (f k) (g k) S) :
    Alike e b (getThe Kill >>= f) (getThe Kill >>= g) S :=
  fun k => h k k

theorem modifyKill (f : Kill → Kill) : Alike e b (modify f : RuleM Unit) (modify f) Eq :=
  fun _ => .pure ⟨rfl, rfl⟩

theorem setKill (k : Kill) : Alike e b (set k : RuleM PUnit) (set k) Eq :=
  fun _ => .pure ⟨rfl, rfl⟩

theorem modifyWorld (h : ∀ w w', World.Alike b w w' → World.Alike b (f w) (g w')) :
    Alike e b (modifyThe World f : RuleM PUnit) (modifyThe World g) Eq :=
  fun _ w w' hw => ⟨⟨rfl, rfl⟩, h w w' hw⟩

theorem fresh_bind {f : Nat → RuleM γ} {g : Nat → RuleM δ}
    (h : ∀ n, Paired b n n → Alike e b (f n) (g n) S) :
    Alike e b (liftM fresh >>= f) (liftM fresh >>= g) S :=
  fun k => Track.Alike.fresh_bind fun n hn => h n hn k

theorem killAll : Alike e b RuleM.killAll RuleM.killAll Eq := modifyKill _

theorem killSource : Alike e b RuleM.killSource RuleM.killSource Eq := modifyKill _

end RuleM.Alike
end LeakTrace
