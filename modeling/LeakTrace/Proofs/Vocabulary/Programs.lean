import LeakTrace.Proofs.Vocabulary.Tracking

/-!
# Every program has a vocabulary

The vocabulary of a program collects what stands in its statements, in the signatures of its methods
and in its graph, with what a store of paths knows and what a run or a search starts from. It is
closed: the graph leads from named statements to named ones, and a number that no statement has
reads as a statement that names nothing.
-/

namespace LeakTrace
open List

/-! ## What is mentioned -/

namespace Atom

def local? : Atom → Option Local
  | .local l => some l
  | _ => none

def field? : Atom → Option Field
  | .field f => some f
  | _ => none

def types : Atom → List Ty
  | .local l => [l.ty]
  | .field f => [f.ty, f.ownerTy]
  | .ty t => [t]

@[simp]
theorem local?_eq_some {a : Atom} {l : Local} : a.local? = some l ↔ a = .local l := by
  cases a <;> simp [local?]

@[simp]
theorem field?_eq_some {a : Atom} {f : Field} : a.field? = some f ↔ a = .field f := by
  cases a <;> simp [field?]

end Atom

def Step.atoms (s : Step) : List Atom := [.field s.field, .ty s.ty]

def Path.atoms (p : Path) : List Atom :=
  (p.base.map Atom.local).toList ++ (p.ty.map Atom.ty).toList ++ p.steps.flatMap Step.atoms

def Taint.paths (t : Taint) : List Path := t.path :: t.origin.toList.map (·.path)

def Taint.stmts (t : Taint) : List StmtId :=
  t.origin.toList.map (·.stmt) ++ t.waitsFor.toList ++ t.turn.toList

namespace Env
variable (e : Env) (store : PathStore) (seeds : List StmtId)

def atoms (taints : List Taint) (values : List Value) : List Atom :=
  [.ty .int, .ty .boolean, .ty .object] ++ values.flatMap Value.atoms ++
    e.program.stmts.toList.flatMap (fun s => s.values.flatMap Value.atoms) ++
    e.program.methods.toList.flatMap (fun m => (m.params ++ m.self.toList).map Atom.local) ++
    store.patterns.flatMap (fun p => .ty p.1 :: p.2.flatMap Step.atoms) ++
    taints.flatMap fun t => t.paths.flatMap Path.atoms

def allStmts (taints : List Taint) : List StmtId :=
  e.program.stmts.toList.map (·.id) ++ e.program.methods.toList.flatMap (·.body) ++
    e.graph.exits.toList.flatMap (·.all) ++ e.graph.preds.toList.flatMap id ++
    e.graph.callers.toList.flatMap id ++ seeds ++ taints.flatMap Taint.stmts

/-- What facts can mention in a run that starts with the store and from the seeds, or from taints and
values that are there already. -/
def vocabulary (taints : List Taint := []) (values : List Value := []) : Vocabulary :=
  let atoms := e.atoms store taints values
  let types := (atoms.flatMap Atom.types).toFinset
  let stmts := (e.allStmts seeds taints).toFinset
  let origins := (taints.flatMap (·.origin.toList)).toFinset
  { locals := (atoms.filterMap Atom.local?).toFinset
    fields := (atoms.filterMap Atom.field?).toFinset
    kinds := types.image Ty.innermost
    dims := max Ty.maxDimensions (types.sup Ty.dimensions)
    length := max store.rules.settings.length
      ((taints.flatMap Taint.paths).toFinset.sup (·.steps.length))
    stmts
    joins := stmts.image e.graph.joinOf ∪ (taints.flatMap (·.joins)).toFinset
    definitions := origins.image (·.definition) ∪ stmts.biUnion fun n =>
      insert (.ofSource (e.program.method (e.stmt n).method).signature)
        ((e.stmt n).call?.map fun c => Definition.ofSource c.method.signature).toFinset
    data := insert none (origins.image (·.data))
    repeats := taints.toFinset.sup (·.joins.length) }

variable {e store seeds} {taints : List Taint} {values : List Value} {n : StmtId} {V : Vocabulary}

/-- What holds of the entries of a table and of the default holds of what is read from the table. -/
theorem getD_of_forall {α : Type} {P : α → Prop} {a : Array α} {d : α} (hd : P d)
    (h : ∀ x ∈ a.toList, P x) (n : Nat) : P (a[n]?.getD d) := by
  cases hn : a[n]? with
  | none => exact hd
  | some x => exact h x (Array.mem_toList_iff.mpr (Array.mem_of_getElem? hn))

section
variable (hV : e.vocabulary store seeds taints values = V)
include hV

/-! ## Types, locals and fields -/

theorem over_types {a : Atom} (ha : a ∈ e.atoms store taints values) : ∀ t ∈ a.types, t.Over V := by
  subst hV
  intro t ht
  have hmem : t ∈ ((e.atoms store taints values).flatMap Atom.types).toFinset :=
    List.mem_toFinset.mpr (mem_flatMap.mpr ⟨a, ha, ht⟩)
  exact ⟨Finset.mem_image_of_mem _ hmem,
    le_max_of_le_right (Finset.le_sup (f := Ty.dimensions) hmem)⟩

theorem over_atoms : ∀ a ∈ e.atoms store taints values, a.Over V := by
  rintro (l | f | t) h
  · simp [Atom.Over, ← hV, vocabulary, h]
  · simp [Atom.Over, ← hV, vocabulary, h]
  · exact over_types hV h t mem_cons_self

theorem closed_vocabulary : V.Closed where
  local_ty l hl := over_types hV (a := .local l) (by simpa [← hV, vocabulary] using hl) _
    mem_cons_self
  field_ty f hf := over_types hV (a := .field f) (by simpa [← hV, vocabulary] using hf) _
    mem_cons_self
  owner_ty f hf := over_types hV (a := .field f) (by simpa [← hV, vocabulary] using hf) _
    (mem_cons_of_mem _ mem_cons_self)
  int_ty := over_atoms hV (.ty .int) (by simp [atoms])
  boolean_ty := over_atoms hV (.ty .boolean) (by simp [atoms])
  object_ty := over_atoms hV (.ty .object) (by simp [atoms])
  dims := hV ▸ le_max_left _ _
  no_data := hV ▸ Finset.mem_insert_self _ _

theorem mem_stmts : ∀ n ∈ e.allStmts seeds taints, n ∈ V.stmts :=
  hV ▸ fun _ => List.mem_toFinset.mpr

theorem covers_vocabulary (hz : e.zero.Over V) : V.Covers e := by
  have hatoms := over_atoms hV
  have hstmts := mem_stmts hV
  simp only [atoms, allStmts, forall_mem_append, forall_mem_flatMap, forall_mem_map] at hatoms hstmts
  obtain ⟨⟨⟨⟨-, hvalues⟩, hlocals⟩, -⟩, -⟩ := hatoms
  obtain ⟨⟨⟨⟨⟨⟨hid, hbody⟩, hsuccs⟩, hpreds⟩, hcallers⟩, -⟩, -⟩ := hstmts
  exact { closed_vocabulary hV with
    id n hn := getD_of_forall (P := fun s : Stmt => s.id ∈ V.stmts) hn hid n
    values n _ := getD_of_forall (P := fun s : Stmt => ∀ v ∈ s.values, v.Over V) (forall_mem_nil _)
      hvalues n
    params m := getD_of_forall (P := fun m : Method => ∀ l ∈ m.params, l ∈ V.locals)
      (forall_mem_nil _) (fun m hm => (hlocals m hm).1) m
    self m := getD_of_forall (P := fun m : Method => ∀ l ∈ m.self, l ∈ V.locals) all_none
      (fun m hm l hl => (hlocals m hm).2 l (Option.mem_toList.mpr hl)) m
    body m := getD_of_forall (P := fun m : Method => ∀ n ∈ m.body, n ∈ V.stmts) (forall_mem_nil _)
      hbody m
    succs n _ := getD_of_forall (P := fun x : Exits => ∀ t ∈ x.all, t ∈ V.stmts) (forall_mem_nil _)
      hsuccs n
    preds n _ := getD_of_forall (forall_mem_nil _) hpreds n
    callers := getD_of_forall (forall_mem_nil _) hcallers
    join n hn := by
      subst hV
      exact Finset.mem_union_left _ (Finset.mem_image_of_mem _ hn)
    callSource n hn c hc := by
      subst hV
      exact Finset.mem_union_right _ (Finset.mem_biUnion.mpr ⟨n, hn, by simp [Option.mem_def.mp hc]⟩)
    paramSource n hn := by
      subst hV
      exact Finset.mem_union_right _ (Finset.mem_biUnion.mpr ⟨n, hn, Finset.mem_insert_self _ _⟩)
    zero := hz }

/-! ## Where runs and searches start -/

theorem over_store : store.Over V where
  length := hV ▸ le_max_left _ _
  patterns p hp := by
    have h := over_atoms hV
    simp only [atoms, forall_mem_append, forall_mem_flatMap, forall_mem_cons] at h
    obtain ⟨hty, hsteps⟩ := h.1.2 p hp
    exact ⟨hty, fun x hx => ⟨hsteps x hx _ mem_cons_self,
      hsteps x hx _ (mem_cons_of_mem _ mem_cons_self)⟩⟩

theorem over_values : ∀ v ∈ values, v.Over V := by
  have h := over_atoms hV
  simp only [atoms, forall_mem_append, forall_mem_flatMap] at h
  exact h.1.1.1.1.2

theorem over_paths {t : Taint} (ht : t ∈ taints) : ∀ p ∈ t.paths, p.Over V := by
  intro p hp
  have h := over_atoms hV
  simp only [atoms, forall_mem_append, forall_mem_flatMap, Path.atoms] at h
  obtain ⟨⟨hbase, hty⟩, hsteps⟩ := h.2 t ht p hp
  refine ⟨fun l hl => hbase (.local l) (by simpa using hl),
    fun u hu => hty (.ty u) (by simpa using hu),
    fun x hx => ⟨hsteps x hx _ mem_cons_self, hsteps x hx _ (mem_cons_of_mem _ mem_cons_self)⟩, ?_⟩
  subst hV
  exact le_max_of_le_right (Finset.le_sup (f := fun q : Path => q.steps.length)
    (List.mem_toFinset.mpr (mem_flatMap.mpr ⟨t, ht, hp⟩)))

theorem over_taints : ∀ t ∈ taints, t.Over V := by
  intro t ht
  have hpaths := over_paths hV ht
  have hstmts := mem_stmts hV
  simp only [allStmts, forall_mem_append, forall_mem_flatMap, Taint.stmts] at hstmts
  obtain ⟨⟨horigin, hwaits⟩, hturn⟩ := hstmts.2 t ht
  refine ⟨hpaths _ mem_cons_self, fun o ho => ?_, fun n hn => hwaits n (by simpa using hn),
    fun n hn => hturn n (by simpa using hn), fun j hj => ?_, ?_⟩
  · have ho := Option.mem_toList.mpr ho
    have horigins : o ∈ (taints.flatMap (·.origin.toList)).toFinset :=
      List.mem_toFinset.mpr (mem_flatMap.mpr ⟨t, ht, ho⟩)
    refine ⟨?_, hpaths _ (mem_cons_of_mem _ (mem_map_of_mem ho)), horigin _ (mem_map_of_mem ho), ?_⟩
    · exact hV ▸ Finset.mem_union_left _ (Finset.mem_image_of_mem _ horigins)
    · exact hV ▸ Finset.mem_insert_of_mem (Finset.mem_image_of_mem _ horigins)
  · exact hV ▸ Finset.mem_union_right _ (List.mem_toFinset.mpr (mem_flatMap.mpr ⟨t, ht, hj⟩))
  · exact hV ▸ Nat.le_add_left_of_le (Finset.le_sup (f := fun t : Taint => t.joins.length)
      (List.mem_toFinset.mpr ht))

end
end Env
end LeakTrace
