import LeakTrace.Proofs.Keeps.Results
import LeakTrace.Proofs.Solve.History
import Mathlib.Data.List.Induction
import Mathlib.Data.List.Nodup

/-!
# Recorded results keep all their sources

Where a sink has seen before what a fact says, the fact that is recorded becomes a neighbour of the
stored one and stays one link away from it. So all that was observed can be reached from what is
stored, and nothing else: recorded facts have numbers of their own, and of these only the stored
ones have neighbours.
-/

namespace LeakTrace
open List

variable {c : SinkHit}

def SinkHit.key (h : SinkHit) : Definition × Taint × StmtId :=
  (h.definition, h.fact.toTaint, h.stmt)

theorem SinkHit.same_iff {a b : SinkHit} : a.same b ↔ a.key = b.key := by
  simp [same, key, Fact.same, and_assoc, and_comm (a := a.stmt = b.stmt)]

def SinkHit.recordedKey (c : SinkHit) : Definition × Taint × StmtId := (c.recorded 0).key

theorem SinkHit.key_recorded {id : Nat} : (c.recorded id).key = c.recordedKey :=
  congrArg (fun t => (c.definition, t, c.stmt)) toTaint_recorded

namespace World
variable {w : World} {a : SinkHit}

/-- The world after the observations were reported, one after the other. -/
def observe (e : Env) (w : World) (calls : List SinkHit) : World :=
  calls.foldl (fun w c => (((Track.addResult c.definition c.fact c.stmt).run e).run w).2) w

/-- Each observation was recorded once, under a number of its own. -/
structure Made (next : Nat) (calls made : List SinkHit) : Prop where
  made_eq : made.map (fun h => (h.key, h.fact.pred)) =
    calls.map fun c => (c.recordedKey, some c.fact)
  unique : ∀ a ∈ made, ∀ b ∈ made, a.fact.id = b.fact.id → a = b
  known : ∀ a ∈ made, a.fact.id < next

namespace Made
variable {next : Nat} {calls made : List SinkHit}

variable (hm : Made next calls made)
include hm

theorem recorded_not_mem (c : SinkHit) : c.recorded next ∉ made :=
  fun hmem => (hm.known _ hmem).ne SinkHit.id_recorded

theorem snoc (c : SinkHit) : Made (next + 1) (calls ++ [c]) (made ++ [c.recorded next]) where
  made_eq := by
    simp [hm.made_eq, SinkHit.pred_recorded, SinkHit.key_recorded]
  unique := by
    have hne : ∀ a ∈ made, a.fact.id ≠ (c.recorded next).fact.id := fun a ha =>
      SinkHit.id_recorded (c := c) ▸ (hm.known a ha).ne
    intro a ha b hb hid
    rcases mem_append.mp ha with ha | ha <;> rcases mem_append.mp hb with hb | hb
    · exact hm.unique a ha b hb hid
    · exact absurd (mem_singleton.mp hb ▸ hid) (hne a ha)
    · exact absurd (mem_singleton.mp ha ▸ hid.symm) (hne b hb)
    · rw [mem_singleton.mp ha, mem_singleton.mp hb]
  known a ha := by
    rcases mem_append.mp ha with ha | ha
    · exact (hm.known a ha).trans (Nat.lt_succ_self next)
    · rw [mem_singleton.mp ha, SinkHit.id_recorded]
      exact Nat.lt_succ_self next

theorem exists_call (ha : a ∈ made) :
    ∃ c ∈ calls, c.recordedKey = a.key ∧ a.fact.pred = some c.fact := by
  have hmem := hm.made_eq ▸ List.mem_map_of_mem ha
  obtain ⟨c, hc, heq⟩ := List.mem_map.mp hmem
  exact ⟨c, hc, congrArg Prod.fst heq, (congrArg Prod.snd heq).symm⟩

theorem exists_made (hc : c ∈ calls) :
    ∃ a ∈ made, a.key = c.recordedKey ∧ a.fact.pred = some c.fact := by
  have hmem := hm.made_eq.symm ▸ List.mem_map_of_mem hc
  obtain ⟨a, ha, heq⟩ := List.mem_map.mp hmem
  exact ⟨a, ha, congrArg Prod.fst heq, congrArg Prod.snd heq⟩

end Made

/-- What observations have left in a world: what was recorded is stored, or is a neighbour of what
is stored under its key. -/
structure Recorded (w : World) (calls made : List SinkHit) : Prop
    extends Made w.nextId calls made where
  /-- Numbers that are still to be given out have no neighbours. -/
  unused : ∀ f, w.nextId ≤ f.id → w.neighborsOf f = []
  stored : ∀ h ∈ w.results, h ∈ made
  nodup : (w.results.map SinkHit.key).Nodup
  neighbors : ∀ h ∈ w.results, ∀ n ∈ w.neighborsOf h.fact, ∃ a ∈ made, a ∉ w.results ∧
    a.fact = n ∧ a.key = h.key
  linked : ∀ a ∈ made, a ∉ w.results → w.neighborsOf a.fact = [] ∧
    ∃ h ∈ w.results, h.key = a.key ∧ a.fact ∈ w.neighborsOf h.fact

theorem mem_origins_iff {f : Fact} {o : Origin} : o ∈ w.origins f ↔ f.origin = some o ∨
    (∃ p, f.pred = some p ∧ o ∈ w.origins p) ∨ ∃ n ∈ w.neighborsOf f, o ∈ w.origins n := by
  constructor
  · rintro ⟨g, hback, ho⟩
    cases hback with
    | refl => exact .inl ho
    | pred hp hback => exact .inr (.inl ⟨_, hp, g, hback, ho⟩)
    | neighbor hn hback => exact .inr (.inr ⟨_, hn, g, hback, ho⟩)
  · rintro (ho | ⟨p, hp, g, hback, ho⟩ | ⟨n, hn, g, hback, ho⟩)
    · exact ⟨f, .refl f, ho⟩
    · exact ⟨g, .pred hp hback, ho⟩
    · exact ⟨g, .neighbor hn hback, ho⟩

namespace Recorded
variable {calls made : List SinkHit} {h old : SinkHit} {o : Origin}

variable (hr : w.Recorded calls made)
include hr

theorem neighborsOf_recorded (c : SinkHit) : w.neighborsOf (c.recorded w.nextId).fact = [] :=
  hr.unused _ SinkHit.id_recorded.ge

theorem store (hnew : w.results.find? (c.recorded w.nextId).same = none) :
    ({ w with nextId := w.nextId + 1, results := w.results ++ [c.recorded w.nextId] } :
      World).Recorded (calls ++ [c]) (made ++ [c.recorded w.nextId]) where
  toMade := hr.toMade.snoc c
  unused f hf := hr.unused f (Nat.le_of_succ_le hf)
  stored h hh := by
    rcases mem_append.mp hh with hh | hh
    · exact mem_append_left _ (hr.stored h hh)
    · exact mem_append_right _ hh
  nodup := by
    rw [map_append]
    refine hr.nodup.append (nodup_singleton _) fun k hk hk' => ?_
    obtain ⟨h, hh, rfl⟩ := List.mem_map.mp hk
    exact List.find?_eq_none.mp hnew h hh (SinkHit.same_iff.mpr (mem_singleton.mp hk').symm)
  neighbors h hh n hn := by
    rcases mem_append.mp hh with hh | hh
    · obtain ⟨a, ha, hna, han, hkey⟩ := hr.neighbors h hh n hn
      refine ⟨a, mem_append_left _ ha, fun hmem => ?_, han, hkey⟩
      rcases mem_append.mp hmem with hmem | hmem
      · exact hna hmem
      · exact hr.recorded_not_mem c (mem_singleton.mp hmem ▸ ha)
    · rw [mem_singleton.mp hh] at hn
      exact absurd (hr.neighborsOf_recorded c ▸ hn) not_mem_nil
  linked a ha hna := by
    rw [mem_append, not_or] at hna
    have ha := (mem_append.mp ha).resolve_right hna.2
    obtain ⟨hnil, h, hh, hkey, hmem⟩ := hr.linked a ha hna.1
    exact ⟨hnil, h, mem_append_left _ hh, hkey, hmem⟩

theorem attach (hold : old ∈ w.results) (hkey : old.key = c.recordedKey) {w' : World}
    (hnext : w'.nextId = w.nextId + 1) (hresults : w'.results = w.results)
    (hlinks : ∀ g, w'.neighborsOf g = if old.fact.id = g.id then
      w.neighborsOf g ++ [(c.recorded w.nextId).fact] else w.neighborsOf g) :
    w'.Recorded (calls ++ [c]) (made ++ [c.recorded w.nextId]) := by
  have hmade : old ∈ made := hr.stored old hold
  have hnot : c.recorded w.nextId ∉ w.results := fun hmem =>
    hr.recorded_not_mem c (hr.stored _ hmem)
  refine { hnext ▸ hr.toMade.snoc c with
    unused := fun f hf => ?_, stored := fun h hh => ?_, nodup := hresults ▸ hr.nodup
    neighbors := fun h hh n hn => ?_, linked := fun a ha hna => ?_ }
  · rw [hnext] at hf
    rw [hlinks, if_neg ((hr.known old hmade).trans_le (Nat.le_of_succ_le hf)).ne]
    exact hr.unused f (Nat.le_of_succ_le hf)
  · exact mem_append_left _ (hr.stored h (hresults ▸ hh))
  · rw [hresults] at hh ⊢
    have hsplit : n ∈ w.neighborsOf h.fact ∨ h = old ∧ n = (c.recorded w.nextId).fact := by
      rw [hlinks] at hn
      split at hn
      · next hid =>
        refine (mem_append.mp hn).imp_right fun hn => ⟨?_, mem_singleton.mp hn⟩
        exact hr.unique h (hr.stored h hh) old hmade hid.symm
      · exact .inl hn
    rcases hsplit with hn | ⟨rfl, rfl⟩
    · obtain ⟨a, ha, hrest⟩ := hr.neighbors h hh n hn
      exact ⟨a, mem_append_left _ ha, hrest⟩
    · exact ⟨_, mem_append_right _ mem_cons_self, hnot, rfl, SinkHit.key_recorded.trans hkey.symm⟩
  · rw [hresults] at hna ⊢
    rw [hlinks]
    rcases mem_append.mp ha with ha | ha
    · obtain ⟨hnil, h, hh, hkey', hmem⟩ := hr.linked a ha hna
      rw [if_neg fun hid => hna (hr.unique old hmade a ha hid ▸ hold)]
      refine ⟨hnil, h, hh, hkey', ?_⟩
      rw [hlinks]
      split
      · exact mem_append_left _ hmem
      · exact hmem
    · rw [mem_singleton.mp ha, SinkHit.id_recorded, if_neg (hr.known old hmade).ne]
      refine ⟨hr.neighborsOf_recorded c, old, hold, hkey.trans SinkHit.key_recorded.symm, ?_⟩
      rw [hlinks, if_pos rfl]
      exact mem_append_right _ mem_cons_self

theorem recordNew (c : SinkHit) :
    (w.recordNew c).Recorded (calls ++ [c]) (made ++ [c.recorded w.nextId]) := by
  unfold World.recordNew World.record
  split
  · next old hfind =>
    have hold : old ∈ w.results := mem_of_find?_eq_some hfind
    have hkey : old.key = c.recordedKey :=
      (SinkHit.same_iff.mp (find?_some hfind)).symm.trans SinkHit.key_recorded
    -- Numbers below the new one cannot refuse it.
    have hne : ∀ a ∈ made, a.fact.id ≠ (c.recorded w.nextId).fact.id := fun a ha =>
      SinkHit.id_recorded (c := c) ▸ (hr.known a ha).ne
    rcases World.addNeighbor_cases { w with nextId := w.nextId + 1 } old.fact
      (c.recorded w.nextId).fact with hid | ⟨n, hn, hid⟩ | heq
    · exact absurd hid (hne old (hr.stored old hold))
    · obtain ⟨a, ha, -, rfl, -⟩ := hr.neighbors old hold n hn
      exact absurd hid (hne a ha)
    · rw [heq]
      exact hr.attach hold hkey rfl rfl (World.neighborsOf_insert w _ _)
  · next hnew => exact hr.store hnew

/-- What was recorded under the key of a stored result is one link away from it at most. -/
theorem eq_or_mem (hh : h ∈ w.results) (ha : a ∈ made) (hkey : a.key = h.key) :
    a = h ∨ a.fact ∈ w.neighborsOf h.fact := by
  have hinj := inj_on_of_nodup_map hr.nodup
  by_cases hmem : a ∈ w.results
  · exact .inl (hinj hmem hh hkey)
  · obtain ⟨-, b, hb, hbkey, hlink⟩ := hr.linked a ha hmem
    exact .inr (hinj hb hh (hbkey.trans hkey) ▸ hlink)

theorem mem_keys (k : Definition × Taint × StmtId) :
    k ∈ w.results.map SinkHit.key ↔ k ∈ calls.map SinkHit.recordedKey := by
  simp only [List.mem_map]
  constructor
  · rintro ⟨h, hh, rfl⟩
    obtain ⟨c, hc, hkey, -⟩ := hr.exists_call (hr.stored h hh)
    exact ⟨c, hc, hkey⟩
  · rintro ⟨c, hc, rfl⟩
    obtain ⟨a, ha, hkey, -⟩ := hr.exists_made hc
    by_cases hmem : a ∈ w.results
    · exact ⟨a, hmem, hkey⟩
    · obtain ⟨-, h, hh, hkey', -⟩ := hr.linked a ha hmem
      exact ⟨h, hh, hkey'.trans hkey⟩

theorem mem_origins (hh : h ∈ w.results) : o ∈ w.origins h.fact ↔
    h.fact.origin = some o ∨ ∃ c ∈ calls, c.recordedKey = h.key ∧ o ∈ w.origins c.fact := by
  -- What is recorded leads back to its own observation.
  have hpred : ∀ a ∈ made, a.key = h.key → ∀ p, a.fact.pred = some p → o ∈ w.origins p →
      ∃ c ∈ calls, c.recordedKey = h.key ∧ o ∈ w.origins c.fact := by
    intro a ha hkey p hp ho
    obtain ⟨c, hc, hck, hcp⟩ := hr.exists_call ha
    exact ⟨c, hc, hck.trans hkey, Option.some.inj (hcp.symm.trans hp) ▸ ho⟩
  constructor
  · intro ho
    rcases mem_origins_iff.mp ho with ho | ⟨p, hp, ho⟩ | ⟨n, hn, ho⟩
    · exact .inl ho
    · exact .inr (hpred h (hr.stored h hh) rfl p hp ho)
    · obtain ⟨a, ha, hna, rfl, hkey⟩ := hr.neighbors h hh n hn
      have htaint : a.fact.toTaint = h.fact.toTaint := congrArg (·.2.1) hkey
      rcases mem_origins_iff.mp ho with ho | ⟨p, hp, ho⟩ | ⟨n, hn, -⟩
      · exact .inl (htaint ▸ ho)
      · exact .inr (hpred a ha hkey p hp ho)
      · rw [(hr.linked a ha hna).1] at hn
        cases hn
  · rintro (ho | ⟨c, hc, hkey, ho⟩)
    · exact mem_origins_iff.mpr (.inl ho)
    · obtain ⟨a, ha, hak, hp⟩ := hr.exists_made hc
      have hoa : o ∈ w.origins a.fact := mem_origins_iff.mpr (.inr (.inl ⟨_, hp, ho⟩))
      rcases hr.eq_or_mem hh ha (hak.trans hkey) with rfl | hlink
      · exact hoa
      · exact mem_origins_iff.mpr (.inr (.inr ⟨_, hlink, hoa⟩))

end Recorded

theorem recorded_observe {e : Env} {calls : List SinkHit} (hempty : w.results = [])
    (hunused : ∀ f, w.nextId ≤ f.id → w.neighborsOf f = [])
    (hcalls : ∀ c ∈ calls, e.ignores c.stmt = false) :
    ∃ made, (w.observe e calls).Recorded calls made := by
  induction calls using List.reverseRecOn with
  | nil =>
    refine ⟨[], ⟨rfl, by simp, by simp⟩, hunused, ?_, ?_, ?_, by simp⟩ <;> simp [observe, hempty]
  | append_singleton calls c ih =>
    obtain ⟨made, hr⟩ := ih fun c hc => hcalls c (mem_append_left _ hc)
    have hc := hcalls c (mem_append_right _ mem_cons_self)
    have hr' := hr.recordNew c
    refine ⟨made ++ [c.recorded (w.observe e calls).nextId], ?_⟩
    unfold observe
    rw [foldl_append, foldl_cons, foldl_nil]
    obtain ⟨-, ⟨hno, -⟩ | ⟨-, n, heq | heq⟩⟩ := (w.observe e calls).ends_addResult (e := e) c
    · cases hc.symm.trans hno
    · exact heq ▸ { hr' with }
    · exact heq ▸ { hr' with }

/-- After any observations there is one result for each key, and its sources are the one it carries
and those of all facts that were observed under the key. -/
theorem results_keep_sources {e : Env} {w : World} {calls : List SinkHit} (hempty : w.results = [])
    (hunused : ∀ f, w.nextId ≤ f.id → w.neighborsOf f = [])
    (hcalls : ∀ c ∈ calls, e.ignores c.stmt = false) :
    ((w.observe e calls).results.map SinkHit.key).Nodup ∧
    (∀ k, k ∈ (w.observe e calls).results.map SinkHit.key ↔ k ∈ calls.map SinkHit.recordedKey) ∧
    ∀ h ∈ (w.observe e calls).results, ∀ o, o ∈ (w.observe e calls).origins h.fact ↔
      h.fact.origin = some o ∨
      ∃ c ∈ calls, c.recordedKey = h.key ∧ o ∈ (w.observe e calls).origins c.fact := by
  obtain ⟨made, hr⟩ := recorded_observe hempty hunused hcalls
  exact ⟨hr.nodup, hr.mem_keys, fun h hh o => hr.mem_origins hh⟩

end World

/-! ## Two sources at one sink -/

def readOrigin (n : StmtId) : Origin :=
  { definition := { kind := .source, id := "read" }, path := { base := some ⟨0, "x", .int⟩ }
    stmt := n }

def readHit (n : StmtId) : SinkHit :=
  ⟨{ kind := .sink, id := "write" }, .ofSource n (readOrigin n) false false false, 3⟩

def readingTwice : Env := { graph := default, config := { ignoreSystemPackages := false } }

def readTwice : World := World.observe readingTwice { nextId := 3 } [readHit 1, readHit 2]

/-- Both arrive under one key, and the one result that is stored has both sources. -/
theorem readTwice_sources : (readHit 1).recordedKey = (readHit 2).recordedKey ∧
    ∃ h ∈ readTwice.results, ∀ n ∈ [1, 2], readOrigin n ∈ readTwice.origins h.fact := by
  have hkey : ∀ n ∈ [1, 2], (readHit n).recordedKey = (readHit 1).recordedKey := by
    rintro n hn
    rcases mem_pair.mp hn with rfl | rfl <;> rfl
  obtain ⟨-, hkeys, horigins⟩ := @World.results_keep_sources readingTwice
    { nextId := 3 } [readHit 1, readHit 2] rfl
    (fun f _ => by simp [World.neighborsOf]) (fun _ _ => rfl)
  obtain ⟨h, hh, hhkey⟩ := List.mem_map.mp ((hkeys _).mpr (List.mem_map_of_mem mem_cons_self))
  refine ⟨(hkey 2 (by simp)).symm, h, hh, fun n hn => (horigins h hh _).mpr (.inr ?_)⟩
  refine ⟨readHit n, List.mem_map_of_mem hn, (hkey n hn).trans hhkey.symm, ?_⟩
  exact World.mem_origins_iff.mpr (.inl rfl)

end LeakTrace
