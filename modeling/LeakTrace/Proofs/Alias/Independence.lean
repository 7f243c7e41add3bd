import LeakTrace.Proofs.Alias.Quests

/-!
# When one search does not disturb the next

Searches by points-to sets remember the taints they were at, and nothing else of their quests. So
**a search for one taint can hide aliases from the search for another**: where both come to a taint,
the second stops, even if it brings other fields along. Two searches that agree on the taints they
both meet are independent.
-/

namespace LeakTrace
open List
open Walk (go)

/-! ## What a walk leaves behind -/

namespace Walk
variable {leads : Quest → List Lead} {known : Taint → Bool} {n : Nat} {x y : Walk} {q : Quest}
  {l : List Lead} {t : Taint} {lead : Lead}

theorem met_iff : x.met t ↔ ∃ v ∈ x.quests, v.taint = t := by
  simp [met]

/-- The lead was followed, or there was no need to. -/
def Followed (known : Taint → Bool) (x : Walk) : Lead → Prop
  | .search q => known q.taint = true ∨ x.met q.taint = true
  | .send s t => (s, t) ∈ x.sent

theorem followed_congr {lead' : Lead} (h : lead.find = lead'.find) :
    x.Followed known lead ↔ x.Followed known lead' := by
  cases lead <;> cases lead' <;> simp_all [Lead.find, Followed]

structure Grows (x y : Walk) : Prop where
  quests : x.quests ⊆ y.quests
  sent : x.sent ⊆ y.sent
  complete : y.complete = true → x.complete = true

namespace Grows

theorem refl (x : Walk) : x.Grows x := ⟨List.Subset.refl _, List.Subset.refl _, id⟩

theorem trans {z : Walk} (h : x.Grows y) (h' : y.Grows z) : x.Grows z :=
  ⟨List.Subset.trans h.quests h'.quests, List.Subset.trans h.sent h'.sent,
    fun hz => h.complete (h'.complete hz)⟩

theorem met (h : x.Grows y) (ht : x.met t) : y.met t := by
  obtain ⟨v, hv, hvt⟩ := met_iff.mp ht
  exact met_iff.mpr ⟨v, h.quests hv, hvt⟩

theorem followed (h : x.Grows y) (hl : x.Followed known lead) : y.Followed known lead := by
  cases lead with
  | search q => exact hl.imp_right h.met
  | send s t => exact h.sent hl

end Grows

theorem grows_enter (x : Walk) (q : Quest) : x.Grows (x.enter q) :=
  ⟨subset_cons_self _ _, List.Subset.refl _, id⟩

section Foldl
variable {step : Walk → Quest → Walk} (hgrows : ∀ (x : Walk) q, x.Grows (step x q))
include hgrows

theorem grows_follow (x : Walk) (lead : Lead) : x.Grows (x.follow step lead) := by
  cases lead with
  | search q => exact hgrows x q
  | send s t => exact ⟨List.Subset.refl _, subset_cons_self _ _, id⟩

theorem grows_foldl (x : Walk) (l : List Lead) : x.Grows (l.foldl (follow step) x) := by
  induction l generalizing x with
  | nil => exact .refl x
  | cons lead rest ih => exact (grows_follow hgrows x lead).trans (ih _)

/-- After a complete walk nothing is left to do: of each quest that came up on the way, all leads
were followed. -/
theorem followed_foldl
    (hstep : ∀ x q, (step x q).complete → (step x q).Followed known (.search q) ∧
      ∀ v ∈ (step x q).quests, v ∈ x.quests ∨ ∀ lead ∈ leads v, (step x q).Followed known lead)
    (x : Walk) (l : List Lead) (hx : (l.foldl (follow step) x).complete) :
    (∀ lead ∈ l, (l.foldl (follow step) x).Followed known lead) ∧
      ∀ v ∈ (l.foldl (follow step) x).quests, v ∈ x.quests ∨
        ∀ lead ∈ leads v, (l.foldl (follow step) x).Followed known lead := by
  induction l generalizing x with
  | nil => exact ⟨forall_mem_nil _, fun v hv => .inl hv⟩
  | cons lead rest ih =>
    -- What was followed stays followed, so the first lead may be looked at right after its step.
    rw [foldl_cons] at hx ⊢
    have hlater : (x.follow step lead).Grows (rest.foldl (follow step) (x.follow step lead)) :=
      grows_foldl hgrows _ _
    obtain ⟨hrest, hquests⟩ := ih (x.follow step lead) hx
    have hhere : (x.follow step lead).Followed known lead ∧
        ∀ v ∈ (x.follow step lead).quests, v ∈ x.quests ∨
          ∀ lead' ∈ leads v, (x.follow step lead).Followed known lead' := by
      cases lead with
      | search q => exact hstep x q (hlater.complete hx)
      | send s t => exact ⟨mem_cons_self, fun v hv => .inl hv⟩
    refine ⟨forall_mem_cons.mpr ⟨hlater.followed hhere.1, hrest⟩, fun v hv => ?_⟩
    rcases hquests v hv with hv | hv
    · exact (hhere.2 v hv).imp_right fun hall lead' hlead => hlater.followed (hall lead' hlead)
    · exact .inr hv

end Foldl

theorem grows_go (n : Nat) (x : Walk) (q : Quest) : x.Grows (go leads known n x q) := by
  induction n generalizing x q with
  | zero => exact ⟨List.Subset.refl _, List.Subset.refl _, nofun⟩
  | succ n ih =>
    by_cases hmet : (known q.taint || x.met q.taint)
    · rw [go_of_met hmet]
      exact .refl x
    · rw [go_of_fresh hmet]
      exact (grows_enter x q).trans (grows_foldl ih _ _)

theorem followed_go (n : Nat) (x : Walk) (q : Quest) (hx : (go leads known n x q).complete) :
    (go leads known n x q).Followed known (.search q) ∧ ∀ v ∈ (go leads known n x q).quests,
    v ∈ x.quests ∨ ∀ lead ∈ leads v, (go leads known n x q).Followed known lead := by
  induction n generalizing x q with
  | zero => cases hx
  | succ n ih =>
    by_cases hmet : (known q.taint || x.met q.taint)
    · rw [go_of_met hmet] at hx ⊢
      exact ⟨by simpa [Followed] using hmet, fun v hv => .inl hv⟩
    · rw [go_of_fresh hmet] at hx ⊢
      have hgrows : (x.enter q).Grows ((leads q).foldl (follow (go leads known n)) (x.enter q)) :=
        grows_foldl (grows_go n) _ _
      obtain ⟨hown, hquests⟩ := followed_foldl (grows_go n) ih (x.enter q) (leads q) hx
      refine ⟨.inr (met_iff.mpr ⟨q, hgrows.quests mem_cons_self, rfl⟩), fun v hv => ?_⟩
      rcases hquests v hv with hv | hv
      · rcases mem_cons.mp hv with rfl | hv
        · exact .inr hown
        · exact .inl hv
      · exact .inr hv

/-! ## Two walks side by side -/

/-- `y` is what `x` is, together with what an earlier walk has done. -/
structure Beside (first x y : Walk) : Prop where
  met : ∀ t, y.met t = true ↔ first.met t = true ∨ x.met t = true
  sent : ∀ a, a ∈ y.sent ↔ a ∈ first.sent ∨ a ∈ x.sent

/-- Where the quest comes to a taint of an earlier walk, that walk has followed all its leads. -/
def Covers (leads : Quest → List Lead) (known : Taint → Bool) (first : Walk) (v : Quest) : Prop :=
  first.met v.taint = true → ∀ lead ∈ leads v, first.Followed known lead

variable {first : Walk}

namespace Beside

theorem start : first.Beside {} first :=
  ⟨fun t => by simp [Walk.met], fun a => by simp⟩

section
variable (h : first.Beside x y)
include h

theorem enter (q : Quest) : first.Beside (x.enter q) (y.enter q) := by
  refine ⟨fun t => ?_, h.sent⟩
  have ht := h.met t
  simp only [Walk.met, Walk.enter, any_cons, Bool.or_eq_true] at ht ⊢
  tauto

theorem enter_left (hq : first.met q.taint) : first.Beside (x.enter q) y := by
  refine ⟨fun t => ?_, h.sent⟩
  rw [h.met t]
  constructor
  · exact fun ht => ht.imp_right (grows_enter x q).met
  · rintro (ht | ht)
    · exact .inl ht
    · obtain ⟨v, hv, rfl⟩ := met_iff.mp ht
      rcases mem_cons.mp hv with rfl | hv
      · exact .inl hq
      · exact .inr (met_iff.mpr ⟨v, hv, rfl⟩)

theorem send (s : StmtId) (t : Taint) :
    first.Beside { x with sent := (s, t) :: x.sent } { y with sent := (s, t) :: y.sent } := by
  refine ⟨h.met, fun a => ?_⟩
  rw [mem_cons, mem_cons, h.sent a]
  tauto

theorem send_left {s : StmtId} (hsent : (s, t) ∈ first.sent) :
    first.Beside { x with sent := (s, t) :: x.sent } y := by
  refine ⟨h.met, fun a => ?_⟩
  rw [h.sent a, mem_cons]
  constructor
  · tauto
  · rintro (ha | rfl | ha)
    · exact .inl ha
    · exact .inl hsent
    · exact .inr ha

end

section Foldl
variable {step : Walk → Quest → Walk} (hgrows : ∀ (x : Walk) q, x.Grows (step x q))
  {C : Quest → Prop}
include hgrows

theorem absorbs_foldl (hstep : ∀ x q, first.Beside x y → first.Followed known (.search q) →
      (∀ v ∈ (step x q).quests, C v) → first.Beside (step x q) y)
    (h : first.Beside x y) (hl : ∀ lead ∈ l, first.Followed known lead)
    (hC : ∀ v ∈ (l.foldl (follow step) x).quests, C v) :
    first.Beside (l.foldl (follow step) x) y := by
  induction l generalizing x with
  | nil => exact h
  | cons lead rest ih =>
    rw [foldl_cons] at hC ⊢
    obtain ⟨hlead, hrest⟩ := forall_mem_cons.mp hl
    refine ih ?_ hrest hC
    cases lead with
    | search q => exact hstep x q h hlead fun v hv => hC v ((grows_foldl hgrows _ rest).quests hv)
    | send s t => exact h.send_left hlead

theorem foldl (hstep : ∀ x y q, first.Beside x y → (∀ v ∈ (step x q).quests, C v) →
      first.Beside (step x q) (step y q))
    (h : first.Beside x y) (hC : ∀ v ∈ (l.foldl (follow step) x).quests, C v) :
    first.Beside (l.foldl (follow step) x) (l.foldl (follow step) y) := by
  induction l generalizing x y with
  | nil => exact h
  | cons lead rest ih =>
    rw [foldl_cons] at hC ⊢
    refine ih ?_ hC
    cases lead with
    | search q => exact hstep x y q h fun v hv => hC v ((grows_foldl hgrows _ rest).quests hv)
    | send s t => exact h.send s t

end Foldl

theorem absorbs (n : Nat) (h : first.Beside x y) (hq : first.Followed known (.search q))
    (hcovers : ∀ v ∈ (go leads known n x q).quests, first.Covers leads known v) :
    first.Beside (go leads known n x q) y := by
  induction n generalizing x q with
  | zero => exact ⟨h.met, h.sent⟩
  | succ n ih =>
    by_cases hmet : (known q.taint || x.met q.taint)
    · rw [go_of_met hmet]
      exact h
    · -- The quest is new to `x` alone, so it is the earlier walk that met its taint.
      have hfirst : first.met q.taint := by
        rcases hq with hknown | hfirst
        · simp [hknown] at hmet
        · exact hfirst
      rw [go_of_fresh hmet] at hcovers ⊢
      have hown : ∀ lead ∈ leads q, first.Followed known lead :=
        hcovers q ((grows_foldl (grows_go n) _ _).quests mem_cons_self) hfirst
      exact absorbs_foldl (grows_go n) (fun x q => ih) (h.enter_left hfirst) hown hcovers

theorem go (n : Nat) (h : first.Beside x y)
    (hcovers : ∀ v ∈ (go leads known n x q).quests, first.Covers leads known v) :
    first.Beside (go leads known n x q) (go leads known n y q) := by
  induction n generalizing x y q with
  | zero => exact ⟨h.met, h.sent⟩
  | succ n ih =>
    have hmet := h.met q.taint
    by_cases hx : (known q.taint || x.met q.taint)
    · have hy : (known q.taint || y.met q.taint) := by
        simp only [Bool.or_eq_true] at hx ⊢
        tauto
      rw [go_of_met hx, go_of_met hy]
      exact h
    · -- A taint of the earlier walk stops the second walk only.
      by_cases hfirst : first.met q.taint
      · have hy : (known q.taint || y.met q.taint) := by
          simp [hmet.mpr (.inl hfirst)]
        rw [go_of_met hy]
        exact h.absorbs (n + 1) (.inr hfirst) hcovers
      · have hy : ¬ (known q.taint || y.met q.taint) := by
          simp only [Bool.or_eq_true] at hx ⊢
          tauto
        rw [go_of_fresh hx] at hcovers
        rw [go_of_fresh hx, go_of_fresh hy]
        exact foldl (grows_go n) (fun x y q => ih) (h.enter q) hcovers

end Beside

/-- A complete walk covers all quests that find no more than its own. -/
theorem covers_of_complete {q1 v : Quest} (hx : (go leads known n {} q1).complete)
    (hv : ∀ v₁ ∈ (go leads known n {} q1).quests, v₁.taint = v.taint →
      (leads v).map Lead.find ⊆ (leads v₁).map Lead.find) :
    (go leads known n {} q1).Covers leads known v := by
  intro hmet lead hlead
  obtain ⟨v₁, hv1, htaint⟩ := met_iff.mp hmet
  obtain ⟨lead1, hlead1, hfind⟩ := List.mem_map.mp (hv v₁ hv1 htaint (List.mem_map_of_mem hlead))
  rcases (followed_go n {} q1 hx).2 v₁ hv1 with hnil | hall
  · cases hnil
  · exact (followed_congr hfind).mp (hall lead1 hlead1)

/-- Where all that a quest would search for was met, only its own aliases are handed over. -/
theorem mem_sent_foldl (hl : ∀ p, .search p ∈ l → x.met p.taint) (a : StmtId × Taint) :
    a ∈ (l.foldl (follow (go leads known (n + 1))) x).sent ↔ a ∈ x.sent ∨ .send a.1 a.2 ∈ l := by
  induction l generalizing x with
  | nil => simp
  | cons lead rest ih =>
    have hrest : ∀ p, .search p ∈ rest → x.met p.taint :=
      fun p hp => hl p (mem_cons_of_mem lead hp)
    rw [foldl_cons]
    cases lead with
    | search p =>
      have hmet : x.follow (go leads known (n + 1)) (.search p) = x :=
        go_of_met (by simp [hl p mem_cons_self]) n
      rw [hmet, ih hrest]
      simp
    | send s t =>
      have hsent := ih (x := x.follow (go leads known (n + 1)) (.send s t)) hrest
      rw [hsent]
      simp only [follow, mem_cons, Lead.send.injEq, Prod.ext_iff]
      tauto

end Walk

/-! ## One search after the other -/

/-- The alias was handed over in the context, to be taken up at the statement. -/
def World.Sends (d1 : Fact) (w : World) (n : StmtId) (t : Taint) : Prop :=
  ∃ g : Fact, .edge .forward d1 n g ∈ w.outbox ∧ g.toTaint = t

variable {e : Env} {d1 : Fact} {m : MethodId} {w w0 : World} {x : Walk}

theorem World.Walked.sends_iff (h : w0.Walked d1 m x w) (n : StmtId) (t : Taint) :
    w.Sends d1 n t ↔ (n, t) ∈ x.sent ∨ w0.Sends d1 n t := by
  obtain ⟨new, hnew, hsent⟩ := h.sent
  unfold World.Sends
  rw [hnew, ← hsent]
  constructor
  · rintro ⟨g, hg, rfl⟩
    rcases mem_append.mp hg with hg | hg
    · obtain ⟨p, hp, heq⟩ := List.mem_map.mp hg
      cases heq
      exact .inl (List.mem_map.mpr ⟨p, hp, rfl⟩)
    · exact .inr ⟨g, hg, rfl⟩
  · rintro (hmem | ⟨g, hg, rfl⟩)
    · obtain ⟨p, hp, heq⟩ := List.mem_map.mp hmem
      cases heq
      exact ⟨p.2, mem_append_left _ (List.mem_map.mpr ⟨p, hp, rfl⟩), rfl⟩
    · exact ⟨g, mem_append_right _ hg, rfl⟩

section Together
variable {leads : Quest → List Lead} {k k' : Nat} {first : Walk} {q q' : Quest}
  {after both alone : World}

theorem World.Walked.sends_together
    (hfirst : w.Walked d1 m (go leads (w.knows d1 m) k {} q) after)
    (hboth : w.Walked d1 m (go leads (w.knows d1 m) k'
      (go leads (w.knows d1 m) k {} q) q') both)
    (halone : w.Walked d1 m (go leads (w.knows d1 m) k' {} q') alone)
    (hcomplete : (go leads (w.knows d1 m) k {} q).complete)
    (hleads : ∀ v ∈ (go leads (w.knows d1 m) k {} q).quests,
      ∀ v' ∈ (go leads (w.knows d1 m) k' {} q').quests, v.taint = v'.taint →
        (leads v').map Lead.find ⊆ (leads v).map Lead.find) (n : StmtId) (t : Taint) :
    both.Sends d1 n t ↔ after.Sends d1 n t ∨ alone.Sends d1 n t := by
  have hbeside := Walk.Beside.start.go k' fun v' hv' =>
    Walk.covers_of_complete hcomplete fun v hv => hleads v hv v' hv'
  rw [hboth.sends_iff, hfirst.sends_iff, halone.sends_iff, hbeside.sent]
  tauto

theorem World.Walked.sends_own (hfirst : w.Walked d1 m first after)
    (hboth : w.Walked d1 m (go leads (w.knows d1 m) (k + 2) first q) both)
    (hfresh : ¬ (w.knows d1 m q.taint || first.met q.taint))
    (hnext : ∀ p, .search p ∈ leads q → first.met p.taint) (n : StmtId) (t : Taint) :
    both.Sends d1 n t ↔ after.Sends d1 n t ∨ .send n t ∈ leads q := by
  rw [Walk.go_of_fresh hfresh] at hboth
  have hmet : ∀ p, .search p ∈ leads q → (first.enter q).met p.taint :=
    fun p hp => (Walk.grows_enter first q).met (hnext p hp)
  have hsent : (n, t) ∈ ((leads q).foldl (Walk.follow (go leads (w.knows d1 m) (k + 1)))
      (first.enter q)).sent ↔ (n, t) ∈ first.sent ∨ .send n t ∈ leads q :=
    Walk.mem_sent_foldl hmet (n, t)
  rw [hboth.sends_iff, hfirst.sends_iff, hsent]
  tauto

end Together

namespace Track

/-- The quest with which the search for the aliases of a fact begins. -/
def startingQuest (f : Fact) (src : StmtId) : Quest := .of f [] f.path.deep src

/-- The world after the search for the aliases of a fact that is new at a statement. -/
def afterSearch (e : Env) (d1 : Fact) (m : MethodId) (f : Fact) (src : StmtId) (w : World) :
    World :=
  (((searchPointsTo searchFuel d1 m f [] f.path.deep src).run e).run w).2

def searchWalk (e : Env) (d1 : Fact) (m : MethodId) (f : Fact) (src : StmtId) (w : World)
    (x : Walk := {}) : Walk :=
  go (Quest.leads e w.paths.rules m) (w.knows d1 m) searchFuel x (startingQuest f src)

theorem afterSearch_walked {f : Fact} {src : StmtId} (h : w0.Walked d1 m x w) :
    w0.Walked d1 m (searchWalk e d1 m f src w0 x) (afterSearch e d1 m f src w) :=
  searchPointsTo_walks searchFuel f [] f.path.deep src x w h

/-- **One search after another.** If the first search ends, and at each taint that both would come
to it finds what the second finds there, then together they hand over what each of them hands over
alone. If the first was at everything that the second would search for next, then the second hands
over the aliases of its own fact, and nothing more. -/
theorem points_to_search_after_another (e : Env) (d1 t₁ t₂ : Fact) (m : MethodId)
    (src₁ src₂ : StmtId) (w : World) :
    let first := searchWalk e d1 m t₁ src₁ w
    let after₁ := afterSearch e d1 m t₁ src₁ w
    let both := afterSearch e d1 m t₂ src₂ after₁
    (first.complete = true →
      (∀ v₁ ∈ first.quests, ∀ v₂ ∈ (searchWalk e d1 m t₂ src₂ w).quests, v₁.taint = v₂.taint →
        v₂.finds e w.paths.rules m ⊆ v₁.finds e w.paths.rules m) →
      ∀ n t, both.Sends d1 n t ↔
        after₁.Sends d1 n t ∨ (afterSearch e d1 m t₂ src₂ w).Sends d1 n t) ∧
    (w.knows d1 m t₂.toTaint = false → first.met t₂.toTaint = false →
      (∀ p, .search p ∈ (startingQuest t₂ src₂).leads e w.paths.rules m →
        first.met p.taint = true) →
      ∀ n t, both.Sends d1 n t ↔
        after₁.Sends d1 n t ∨ .send n t ∈ (startingQuest t₂ src₂).leads e w.paths.rules m) := by
  intro first after₁ both
  have hfirst : w.Walked d1 m first after₁ := afterSearch_walked .self
  have hboth : w.Walked d1 m (searchWalk e d1 m t₂ src₂ w first) both := afterSearch_walked hfirst
  constructor
  · intro hcomplete hfinds
    have halone : w.Walked d1 m (searchWalk e d1 m t₂ src₂ w) (afterSearch e d1 m t₂ src₂ w) :=
      afterSearch_walked .self
    exact hfirst.sends_together hboth halone hcomplete hfinds
  · intro hknows hmet hnext
    exact hfirst.sends_own hboth (by simp [startingQuest, Quest.of, hknows, hmet]) hnext

/-! ## Two names for a box -/

def givenLocal : Local := ⟨0, "given", .cls "Box"⟩

def heldLocal : Local := ⟨1, "held", .cls "Box"⟩

def boxField (name : String) : Field := ⟨"Box", name, .cls "java.lang.Object", false⟩

def boxPath (l : Local) (name : String) : Path where
  base := some l
  ty := some (.cls "Box")
  steps := [⟨boxField name, .cls "java.lang.Object"⟩]
  deep := true

def boxFact (l : Local) (name : String) : Fact := { id := 1, path := boxPath l name }

def holding : Env where
  graph := .ofProgram (((Program.empty.openBody ⟨"App", "main", [], .void⟩ true
    [("given", .cls "Box"), ("held", .cls "Box")]).closeBody
    [.assign (.var heldLocal) (.var givenLocal), .skip, .retVoid] []).addEntry 0) []
  config := { aliasing := .ptsBased }

theorem knows_nothing (d1 : Fact) (m : MethodId) : World.knows d1 m {} = fun _ => false := by
  funext t
  exact Std.HashSet.contains_empty

/-- Behind the copy, `given.first` and then `held.first` become tainted. Both searches come to
`held.first` and to `held`, and find the same there. After a search for `held.first`, one for
`held.second` only looks at what `held.second` itself is. -/
theorem boxes_searched_in_turn :
    let walk (l : Local) (name : String) := searchWalk holding (.zero 0) 0 (boxFact l name) 1 {}
    let search (l : Local) (name : String) := afterSearch holding (.zero 0) 0 (boxFact l name) 1
    (∃ v₁ ∈ (walk givenLocal "first").quests, ∃ v₂ ∈ (walk heldLocal "first").quests,
      v₁.taint = v₂.taint) ∧
    (∀ n t, (search heldLocal "first" (search givenLocal "first" {})).Sends (.zero 0) n t ↔
      (search givenLocal "first" {}).Sends (.zero 0) n t ∨
        (search heldLocal "first" {}).Sends (.zero 0) n t) ∧
    ∀ n t, (search heldLocal "second" (search heldLocal "first" {})).Sends (.zero 0) n t ↔
      (search heldLocal "first" {}).Sends (.zero 0) n t ∨
        .send n t ∈ (startingQuest (boxFact heldLocal "second") 1).leads holding {} 0 := by
  intro walk search
  refine ⟨?_, (points_to_search_after_another holding (.zero 0) (boxFact givenLocal "first")
    (boxFact heldLocal "first") 0 1 1 {}).1 ?_ ?_, (points_to_search_after_another holding (.zero 0)
    (boxFact heldLocal "first") (boxFact heldLocal "second") 0 1 1 {}).2 ?_ ?_ ?_⟩
  · unfold walk searchWalk
    rw [knows_nothing]
    decide +kernel
  · unfold searchWalk
    rw [knows_nothing]
    decide +kernel
  · unfold searchWalk
    rw [knows_nothing]
    decide +kernel
  · rw [knows_nothing]
  · unfold searchWalk
    rw [knows_nothing]
    decide +kernel
  · have hmet : ∀ lead ∈ (startingQuest (boxFact heldLocal "second") 1).leads holding {} 0,
        lead.find.1 = none → (walk heldLocal "first").met lead.find.2 := by
      unfold walk searchWalk
      rw [knows_nothing]
      decide +kernel
    exact fun p hp => hmet (.search p) hp rfl

/-- `held.second` becomes tainted after `held.first`. The search for it would find `given.second`,
but comes to `held`, where the first search has been, and stops. -/
theorem second_field_hidden :
    let search (name : String) :=
      afterSearch holding (.zero 0) 0 (boxFact heldLocal name) 1
    let found : Taint := { path := boxPath givenLocal "second" }
    (search "second" {}).Sends (.zero 0) 0 found ∧
      ¬ (search "second" (search "first" {})).Sends (.zero 0) 0 found := by
  intro search found
  constructor
  · refine ((afterSearch_walked .self).sends_iff _ _).mpr (.inl ?_)
    unfold searchWalk
    rw [knows_nothing]
    decide +kernel
  · intro hsends
    have hlast := ((afterSearch_walked (afterSearch_walked .self)).sends_iff _ _).mp hsends
    rcases hlast with hsent | ⟨g, hg, -⟩
    · revert hsent
      unfold searchWalk
      rw [knows_nothing]
      decide +kernel
    · cases hg

end Track
end LeakTrace
