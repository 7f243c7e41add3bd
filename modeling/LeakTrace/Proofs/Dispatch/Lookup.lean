import LeakTrace.Proofs.Dispatch.Hierarchy
import LeakTrace.Proofs.Graph.Joins

/-!
# Finding the method of a class

A lookup walks from a class to its superclasses until the text of one and the sub-signature leads to
a method. If no sub-signature reads as if it began in a class, this is the method that the class
declares. **The walk answers exactly if it meets such a class or the chain of superclasses ends.** It
remembers no class, so it never answers where the chain runs into a circle without the method: a
class may be declared as its own superclass, and the root class is if it is declared again with the
default superclass. A program has an answer for every lookup exactly if no class is among its own
superclasses.
-/

namespace LeakTrace
open List Option
open MethodRef (signatureIn)

/-! ## Texts of signatures -/

theorem append_inj_of_last {α : Type} {a b : α} {l l' r r' : List α} (hab : a ≠ b)
    (hr : ¬[a, b] <:+: r) (hr' : ¬[a, b] <:+: r') (h : l ++ a :: b :: r = l' ++ a :: b :: r') :
    l = l' ∧ r = r' := by
  have key {mid s t : List α} (hs : ¬[a, b] <:+: s) (hmid : a :: b :: s = mid ++ a :: b :: t) :
      mid = [] ∧ s = t := by
    match mid with
    | [] => simpa using hmid
    | [_] => simp [hab.symm] at hmid
    | _ :: _ :: mid =>
      simp only [cons_append, cons.injEq] at hmid
      exact absurd ⟨mid, t, by simp [hmid.2.2]⟩ hs
  rcases append_eq_append_iff.mp h with ⟨mid, rfl, hmid⟩ | ⟨mid, rfl, hmid⟩
  · obtain ⟨rfl, rfl⟩ := key hr hmid
    simp
  · obtain ⟨rfl, rfl⟩ := key hr' hmid
    simp

namespace MethodRef

/-- What stands between the class and the sub-signature is not part of the sub-signature too. -/
def Separate (m : MethodRef) : Prop := ¬[':', ' '] <:+: m.subSignature.toList

instance (m : MethodRef) : Decidable m.Separate := inferInstanceAs (Decidable (¬_))

theorem Separate.signatureIn_eq_iff {m n : MethodRef} {c d : String} (hm : m.Separate)
    (hn : n.Separate) : signatureIn c m.subSignature = signatureIn d n.subSignature ↔
      c = d ∧ m.subSignature = n.subSignature := by
  constructor
  · intro h
    have htext := congrArg String.toList h
    simp only [signatureIn, String.toList_append] at htext
    have hsplit := append_inj_of_last (a := ':') (b := ' ') (by decide) hm hn
      (by simpa using append_cancel_right htext)
    exact ⟨String.toList_inj.mp (by simpa using hsplit.1), String.toList_inj.mp hsplit.2⟩
  · rintro ⟨rfl, hsub⟩
    rw [hsub]

end MethodRef

namespace Program
variable {p : Program} {c d sub : String} {m m' : Method} {n n' : Nat} {r : Option Method}

/-! ## Declarations of methods -/

/-- The last method of the program that is so. -/
def Last (p : Program) (P : Method → Prop) (m : Method) : Prop :=
  ∃ before after, p.methods.toList = before ++ m :: after ∧ P m ∧ ∀ k ∈ after, ¬P k

/-- The class declares the method under the sub-signature; of several such methods it is the last. -/
def Declares (p : Program) (owner sub : String) : Method → Prop :=
  p.Last fun m => m.owner = owner ∧ m.sig.subSignature = sub

/-- The text of the class and the sub-signature leads to the method, whatever its class is. -/
def Listed (p : Program) (owner sub : String) : Method → Prop :=
  p.Last fun m => m.signature = signatureIn owner sub

theorem Last.mem {P : Method → Prop} (h : p.Last P m) : m ∈ p.methods := by
  obtain ⟨before, after, hmethods, -, -⟩ := h
  simp [← Array.mem_toList_iff, hmethods]

/-- Where texts tell the classes from the sub-signatures, classes declare what the texts lead to. -/
theorem declares_iff_listed {k : MethodRef} (hk : k.Separate) (hp : ∀ x ∈ p.methods, x.sig.Separate) :
    p.Declares c k.subSignature m ↔ p.Listed c k.subSignature m := by
  have hsame : ∀ x ∈ p.methods.toList, (x.owner = c ∧ x.sig.subSignature = k.subSignature ↔
      x.signature = signatureIn c k.subSignature) := by
    intro x hx
    exact ((hp x (Array.mem_toList_iff.mp hx)).signatureIn_eq_iff hk).symm
  unfold Declares Listed Last
  refine exists₂_congr fun before after => and_congr_right fun hmethods => ?_
  rw [hmethods] at hsame
  refine and_congr (hsame m (by simp)) (forall₂_congr fun x hx => not_congr (hsame x ?_))
  simp [hx]

theorem listed_iff :
    p.Listed c sub m ↔ p.bySignature? (signatureIn c sub) = some m := by
  have hlast : p.bySignature? (signatureIn c sub) =
      p.methods.toList.reverse.find? fun m => m.signature == signatureIn c sub := by
    rw [← head?_filter, filter_reverse, head?_reverse, bySignature?, ← Array.foldl_toList]
    simpa using foldl_remember (fun m : Method => m.signature == signatureIn c sub) id
      p.methods.toList none
  rw [hlast, find?_eq_some_iff_append]
  constructor
  · rintro ⟨before, after, hmethods, hm, hafter⟩
    refine ⟨by simpa using hm, after.reverse, before.reverse, by simp [hmethods], ?_⟩
    intro k hk
    simpa using hafter k (mem_reverse.mp hk)
  · rintro ⟨hm, after, before, hmethods, hafter⟩
    refine ⟨before.reverse, after.reverse, ?_, by simpa using hm, ?_⟩
    · have := congrArg List.reverse hmethods
      simpa using this
    · intro k hk
      simpa using hafter k (mem_reverse.mp hk)

theorem not_listed_iff :
    (∀ m, ¬ p.Listed c sub m) ↔ p.bySignature? (signatureIn c sub) = none := by
  simp only [listed_iff, eq_none_iff_forall_ne_some, ne_eq]

theorem exists_unlisted (p : Program) : ∃ sub, ∀ c m, ¬ p.Listed c sub m := by
  -- A text that is longer than all signatures is part of none of them.
  let bound := (p.methods.toList.map fun m => m.signature.length).sum
  refine ⟨String.ofList (List.replicate (bound + 1) 'x'), ?_⟩
  rintro c m ⟨before, after, hmethods, hm, -⟩
  have hle : m.signature.length ≤ bound := by
    simp only [bound, hmethods, map_append, map_cons, sum_append, sum_cons]
    omega
  rw [hm, signatureIn] at hle
  simp only [String.length_append, String.length_ofList, length_replicate] at hle
  omega

/-! ## What a lookup should find -/

/-- The class at distance `n` leads to the method, and no class before it leads to one. -/
def FindsAt (p : Program) (c sub : String) (m : Method) (n : Nat) : Prop :=
  (∃ d, p.hierarchy.ancestor? c n = some d ∧ p.Listed d sub m) ∧
    ∀ k < n, ∀ d, p.hierarchy.ancestor? c k = some d → ∀ m', ¬ p.Listed d sub m'

/-- The method that the nearest class on the chain of superclasses leads to. -/
def FindsFirst (p : Program) (c sub : String) (m : Method) : Prop := ∃ n, p.FindsAt c sub m n

/-- The method of the nearest class on the chain of superclasses that declares the sub-signature. -/
def Inherits (p : Program) (c sub : String) (m : Method) : Prop :=
  ∃ n, (∃ d, p.hierarchy.ancestor? c n = some d ∧ p.Declares d sub m) ∧
    ∀ k < n, ∀ d, p.hierarchy.ancestor? c k = some d → ∀ m', ¬ p.Declares d sub m'

theorem inherits_iff {k : MethodRef} (hk : k.Separate) (hp : ∀ x ∈ p.methods, x.sig.Separate) :
    p.Inherits c k.subSignature m ↔ p.FindsFirst c k.subSignature m := by
  simp only [Inherits, FindsFirst, FindsAt, declares_iff_listed hk hp]

/-- The chain of superclasses ends, and no class on it leads to a method. -/
def FindsNothing (p : Program) (c sub : String) : Prop :=
  (∃ n, p.hierarchy.ancestor? c n = none) ∧
    ∀ n d, p.hierarchy.ancestor? c n = some d → ∀ m, ¬ p.Listed d sub m

/-- The chain of superclasses never ends, and no class on it leads to a method. -/
def FindsNoEnd (p : Program) (c sub : String) : Prop :=
  ∀ n, ∃ d, p.hierarchy.ancestor? c n = some d ∧ ∀ m, ¬ p.Listed d sub m

theorem FindsAt.unique (h : p.FindsAt c sub m n) (h' : p.FindsAt c sub m' n') : m = m' := by
  obtain ⟨⟨d, hd, hm⟩, hbefore⟩ := h
  obtain ⟨⟨d', hd', hm'⟩, hbefore'⟩ := h'
  rcases Nat.lt_trichotomy n n' with hlt | rfl | hlt
  · exact absurd hm (hbefore' n hlt d hd m)
  · cases hd.symm.trans hd'
    exact Option.some.inj ((listed_iff.mp hm).symm.trans (listed_iff.mp hm'))
  · exact absurd hm' (hbefore n' hlt d' hd' m')

theorem findsAt_zero : p.FindsAt c sub m 0 ↔ p.Listed c sub m := by
  simp [FindsAt, Hierarchy.ancestor?]

theorem findsAt_succ : p.FindsAt c sub m (n + 1) ↔ (∀ m', ¬ p.Listed c sub m') ∧
    ∃ d, p.hierarchy.superclass? c = some d ∧ p.FindsAt d sub m n := by
  simp only [FindsAt, Hierarchy.ancestor?_succ]
  cases hd : p.hierarchy.superclass? c with
  | none => simp
  | some d =>
    constructor
    · rintro ⟨hfound, hbefore⟩
      refine ⟨hbefore 0 (Nat.succ_pos n) c rfl, d, rfl, by simpa using hfound, ?_⟩
      intro k hk e he
      refine hbefore (k + 1) (Nat.succ_lt_succ hk) e ?_
      rw [Hierarchy.ancestor?_succ, hd]
      exact he
    · rintro ⟨hc, d', hd', hfound, hbefore⟩
      cases hd'
      refine ⟨by simpa using hfound, ?_⟩
      intro k hk e he
      cases k with
      | zero =>
        cases he
        exact hc
      | succ k =>
        rw [Hierarchy.ancestor?_succ, hd] at he
        exact hbefore k (Nat.lt_of_succ_lt_succ hk) e he

theorem findsNothing_iff : p.FindsNothing c sub ↔ (∀ m, ¬ p.Listed c sub m) ∧
    ∀ d, p.hierarchy.superclass? c = some d → p.FindsNothing d sub := by
  constructor
  · rintro ⟨⟨n, hn⟩, hnone⟩
    refine ⟨hnone 0 c rfl, ?_⟩
    intro d hd
    refine ⟨?_, ?_⟩
    · cases n with
      | zero => cases hn
      | succ n =>
        rw [Hierarchy.ancestor?_succ, hd] at hn
        exact ⟨n, hn⟩
    · intro k e he
      refine hnone (k + 1) e ?_
      rw [Hierarchy.ancestor?_succ, hd]
      exact he
  · rintro ⟨hc, hrest⟩
    cases hd : p.hierarchy.superclass? c with
    | none =>
      refine ⟨⟨1, by simp [Hierarchy.ancestor?, hd]⟩, ?_⟩
      intro k e he
      cases k with
      | zero =>
        cases he
        exact hc
      | succ k => simp [Hierarchy.ancestor?_succ, hd] at he
    | some d =>
      obtain ⟨⟨n, hn⟩, hnone⟩ := hrest d hd
      refine ⟨⟨n + 1, by simp [Hierarchy.ancestor?_succ, hd, hn]⟩, ?_⟩
      intro k e he
      cases k with
      | zero =>
        cases he
        exact hc
      | succ k =>
        rw [Hierarchy.ancestor?_succ, hd] at he
        exact hnone k e he

/-- There is nothing else for a walk along the superclasses to meet. -/
theorem findsNoEnd_iff :
    p.FindsNoEnd c sub ↔ (∀ m, ¬ p.FindsFirst c sub m) ∧ ¬ p.FindsNothing c sub := by
  constructor
  · intro hendless
    refine ⟨?_, ?_⟩
    · rintro m ⟨n, ⟨d, hd, hm⟩, -⟩
      obtain ⟨d', hd', hnone⟩ := hendless n
      cases hd.symm.trans hd'
      exact hnone m hm
    · rintro ⟨⟨n, hn⟩, -⟩
      obtain ⟨d, hd, -⟩ := hendless n
      cases hn.symm.trans hd
  · rintro ⟨hfirst, hnothing⟩ n
    induction n using Nat.strong_induction_on with
    | _ n ih =>
      cases hd : p.hierarchy.ancestor? c n with
      | none =>
        refine absurd ⟨⟨n, hd⟩, ?_⟩ hnothing
        intro k e he
        -- Classes of the chain stand before its end.
        have hk : k < n := by
          by_contra hle
          have hsome : (p.hierarchy.ancestor? c k).isSome := by simp [he]
          have hend := Hierarchy.isSome_ancestor? (Nat.le_of_not_lt hle) hsome
          simp [hd] at hend
        obtain ⟨e', he', hnone⟩ := ih k hk
        cases he.symm.trans he'
        exact hnone
      | some d =>
        refine ⟨d, rfl, ?_⟩
        intro m hm
        refine hfirst m ⟨n, ⟨d, hd, hm⟩, ?_⟩
        intro k hk e he
        obtain ⟨e', he', hnone⟩ := ih k hk
        cases he.symm.trans he'
        exact hnone

/-! ## What a lookup finds -/

theorem lookupWithin_of_findsAt {k : Nat} (h : p.FindsAt c sub m k) (hk : k < n) :
    p.lookupWithin sub n c = some (some m) := by
  induction n generalizing c k with
  | zero => cases hk
  | succ n ih =>
    cases k with
    | zero => rw [lookupWithin, listed_iff.mp (findsAt_zero.mp h)]
    | succ k =>
      obtain ⟨hnone, d, hd, h⟩ := findsAt_succ.mp h
      rw [lookupWithin, not_listed_iff.mp hnone, hd]
      exact ih h (Nat.lt_of_succ_lt_succ hk)

theorem lookupWithin_of_findsNothing (h : p.FindsNothing c sub)
    (hn : p.hierarchy.ancestor? c n = none) : p.lookupWithin sub n c = some none := by
  induction n generalizing c with
  | zero => cases hn
  | succ n ih =>
    obtain ⟨hnone, hrest⟩ := findsNothing_iff.mp h
    rw [lookupWithin, not_listed_iff.mp hnone]
    cases hd : p.hierarchy.superclass? c with
    | none => rfl
    | some d =>
      rw [Hierarchy.ancestor?_succ, hd] at hn
      exact ih (hrest d hd) hn

theorem lookupWithin_sound (hr : p.lookupWithin sub n c = some r) :
    (∀ m ∈ r, p.FindsFirst c sub m) ∧ (r = none → p.FindsNothing c sub) := by
  induction n generalizing c with
  | zero => cases hr
  | succ n ih =>
    rw [lookupWithin] at hr
    cases hown : p.bySignature? (signatureIn c sub) with
    | some m =>
      rw [hown] at hr
      cases hr
      refine ⟨?_, by simp⟩
      intro m' hm'
      cases hm'
      exact ⟨0, findsAt_zero.mpr (listed_iff.mpr hown)⟩
    | none =>
      have hnone := not_listed_iff.mpr hown
      cases hd : p.hierarchy.superclass? c with
      | some d =>
        rw [hown, hd] at hr
        obtain ⟨hfirst, hnothing⟩ := ih hr
        refine ⟨?_, ?_⟩
        · intro m hm
          obtain ⟨k, hk⟩ := hfirst m hm
          exact ⟨k + 1, findsAt_succ.mpr ⟨hnone, d, hd, hk⟩⟩
        · intro hr
          refine findsNothing_iff.mpr ⟨hnone, ?_⟩
          intro e he
          cases hd.symm.trans he
          exact hnothing hr
      | none =>
        rw [hown, hd] at hr
        cases hr
        refine ⟨by simp, fun _ => findsNothing_iff.mpr ⟨hnone, ?_⟩⟩
        intro e he
        cases hd.symm.trans he

theorem FindsAt.lt_nameBound (h : p.FindsAt c sub m n) : n < p.hierarchy.nameBound := by
  obtain ⟨⟨d, hd, hm⟩, hbefore⟩ := h
  obtain ⟨j, hj⟩ := mem_iff_getElem?.mp (Hierarchy.mem_superChain_iff.mpr ⟨n, hd⟩)
  obtain ⟨hlt, -⟩ := List.getElem?_eq_some_iff.mp hj
  rw [Hierarchy.getElem?_superChain hlt] at hj
  have hle : n ≤ j := by
    by_contra hlt'
    exact hbefore j (Nat.lt_of_not_le hlt') d hj m hm
  exact Nat.lt_of_le_of_lt hle (Nat.lt_of_lt_of_le hlt (p.hierarchy.length_superChain_le c))

theorem lookup_eq_some_some_iff : p.lookup c sub = some (some m) ↔ p.FindsFirst c sub m := by
  constructor
  · intro h
    exact (lookupWithin_sound h).1 m rfl
  · rintro ⟨n, hn⟩
    exact lookupWithin_of_findsAt hn (Nat.lt_add_right _ hn.lt_nameBound)

theorem lookup_eq_some_none_iff : p.lookup c sub = some none ↔ p.FindsNothing c sub := by
  constructor
  · intro h
    exact (lookupWithin_sound h).2 rfl
  · intro h
    obtain ⟨⟨n, hn⟩, -⟩ := id h
    exact lookupWithin_of_findsNothing h
      (Hierarchy.ancestor?_eq_none_of_ends hn (Nat.le_add_right _ _))

theorem lookup_eq_some_iff : p.lookup c sub = some r ↔ ∃ n, p.lookupWithin sub n c = some r := by
  constructor
  · intro h
    exact ⟨_, h⟩
  · rintro ⟨n, hn⟩
    obtain ⟨hfirst, hnothing⟩ := lookupWithin_sound hn
    cases r with
    | none => exact lookup_eq_some_none_iff.mpr (hnothing rfl)
    | some m => exact lookup_eq_some_some_iff.mpr (hfirst m rfl)

theorem lookup_eq_none_iff : p.lookup c sub = none ↔ p.FindsNoEnd c sub := by
  rw [findsNoEnd_iff]
  simp only [← lookup_eq_some_some_iff, ← lookup_eq_some_none_iff]
  cases p.lookup c sub with
  | none => simp
  | some r => cases r <;> simp

/-- No number of steps is enough exactly where the superclasses go on for ever without the method. -/
theorem lookupWithin_eq_none_iff : (∀ n, p.lookupWithin sub n c = none) ↔ p.FindsNoEnd c sub := by
  rw [← lookup_eq_none_iff, eq_none_iff_forall_ne_some]
  simp only [ne_eq, lookup_eq_some_iff, not_exists, eq_none_iff_forall_ne_some]
  exact forall_comm

/-! ## The chain as a list -/

theorem inherited?_eq_some_iff : p.inherited? c sub = some m ↔ p.FindsFirst c sub m := by
  have hsound : ∀ m, p.inherited? c sub = some m → p.FindsFirst c sub m := by
    intro m hm
    obtain ⟨before, d, after, hchain, hd, hbefore⟩ := findSome?_eq_some_iff.mp hm
    have hplace : ∀ k ≤ before.length, p.hierarchy.ancestor? c k = (before ++ d :: after)[k]? := by
      intro k hk
      rw [← hchain, Hierarchy.getElem?_superChain]
      simp only [hchain, length_append, length_cons]
      omega
    refine ⟨before.length, ⟨d, ?_, listed_iff.mpr hd⟩, ?_⟩
    · rw [hplace _ (Nat.le_refl _)]
      simp
    · intro k hk e he
      rw [hplace k (Nat.le_of_lt hk), getElem?_append_left hk] at he
      exact not_listed_iff.mpr (hbefore e (mem_of_getElem? he))
  refine ⟨hsound m, ?_⟩
  rintro ⟨n, hn⟩
  obtain ⟨⟨d, hd, hm⟩, -⟩ := id hn
  -- The list of superclasses is complete, so something is found, and there is only one first.
  cases hfound : p.inherited? c sub with
  | none =>
    have hnone := findSome?_eq_none_iff.mp hfound d (Hierarchy.mem_superChain_iff.mpr ⟨n, hd⟩)
    rw [listed_iff.mp hm] at hnone
    cases hnone
  | some m' =>
    obtain ⟨n', hn'⟩ := hsound m' hfound
    rw [hn.unique hn']

/-- The finite list of superclasses gives what the walk gives, and nothing where it has no answer. -/
theorem resolve?_eq_inherited? (p : Program) (c sub : String) :
    p.resolve? c sub = p.inherited? c sub := by
  apply Option.ext
  intro m
  rw [inherited?_eq_some_iff, ← lookup_eq_some_some_iff, resolve?]
  cases p.lookup c sub <;> simp

/-! ## When lookups have an answer -/

/-- A lookup gives the method of the nearest class that declares it, and says that there is none where
the superclasses end without it. It needs finitely many steps unless they go on for ever without
the method. All lookups of a program end exactly if no class is among its own superclasses. -/
theorem lookup_answers_iff_acyclic (p : Program) :
    (∀ c sub m, p.lookup c sub = some (some m) ↔ p.FindsFirst c sub m) ∧
    (∀ c sub, p.lookup c sub = some none ↔ p.FindsNothing c sub) ∧
    (∀ c sub r, p.lookup c sub = some r ↔ ∃ n, p.lookupWithin sub n c = some r) ∧
    (∀ c sub, (∀ n, p.lookupWithin sub n c = none) ↔ p.FindsNoEnd c sub) ∧
    ((∀ c sub, ∃ n r, p.lookupWithin sub n c = some r) ↔ p.hierarchy.Acyclic) := by
  refine ⟨fun _ _ _ => lookup_eq_some_some_iff, fun _ _ => lookup_eq_some_none_iff,
    fun _ _ _ => lookup_eq_some_iff, fun _ _ => lookupWithin_eq_none_iff, ?_⟩
  rw [Hierarchy.acyclic_iff]
  constructor
  · intro hall c
    -- Ask for something that no class leads to: only the end of the chain answers.
    obtain ⟨sub, hsub⟩ := p.exists_unlisted
    obtain ⟨n, r, hr⟩ := hall c sub
    by_contra hends
    have hendless : p.FindsNoEnd c sub := by
      intro n
      obtain ⟨d, hd⟩ := ne_none_iff_exists'.mp (not_exists.mp hends n)
      exact ⟨d, hd, hsub d⟩
    cases hr.symm.trans (lookupWithin_eq_none_iff.mpr hendless n)
  · intro hends c sub
    by_contra hnone
    have hendless : p.FindsNoEnd c sub := by
      apply lookupWithin_eq_none_iff.mp
      intro n
      rw [eq_none_iff_forall_ne_some]
      intro r hr
      exact hnone ⟨n, r, hr⟩
    obtain ⟨n, hn⟩ := hends c
    obtain ⟨d, hd, -⟩ := hendless n
    cases hn.symm.trans hd

/-- The root class, declared again as a library class with the default superclass. -/
def rootAgain : Program :=
  Program.empty.addClass Ty.objectName { superclass := some Ty.objectName, isLibrary := true }

/-- The root class is its own superclass then, and no number of steps is enough to look up a method
that it does not declare. -/
theorem rootAgain_lookup_endless :
    rootAgain.Built ∧ ∀ n, rootAgain.lookupWithin "void run()" n Ty.objectName = none := by
  have hsuper : rootAgain.hierarchy.superclass? Ty.objectName = some Ty.objectName := by
    decide +kernel
  have hchain : ∀ n, rootAgain.hierarchy.ancestor? Ty.objectName n = some Ty.objectName := by
    intro n
    induction n with
    | zero => rfl
    | succ n ih => rw [Hierarchy.ancestor?, ih, bind_some, hsuper]
  refine ⟨.addClass _ _ .empty, lookupWithin_eq_none_iff.mpr ?_⟩
  intro n
  exact ⟨_, hchain n, not_listed_iff.mpr rfl⟩

end Program
end LeakTrace
