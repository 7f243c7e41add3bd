import LeakTrace.Results
import Mathlib.Data.List.Nodup
import Mathlib.Data.List.SplitBy
import Mathlib.Data.Prod.Lex
import Mathlib.Data.String.Basic

/-!
# How often a report announces a sink

A report goes through the connections in their order and announces a sink wherever it changes. The
order looks at the statement of the source before it looks at the path of the sink, so **two sinks
of one statement can take turns**, and each is announced again whenever its turn comes. A sink is
announced once, with all its sources, if no connection of another sink comes between its own.
-/

namespace LeakTrace
open List

def ResultSink.id (s : ResultSink) : Definition × StmtId × Path :=
  (s.definition, s.stmt, s.path.toPath)

theorem ResultSink.same_iff {a b : ResultSink} : a.same b ↔ a.id = b.id := by
  simp [same, id, AccessPath.same, and_assoc]

namespace Results
open ResultSink (same_iff)
variable {r : Results} {c d : Connection} {l : List Connection} {m : List (List Connection)}
  {s : ResultSink}

/-! ## Stored connections -/

/-- Results as additions and merges make them. -/
inductive Gathered : Results → Prop where
  | empty {r : Results} : r.groups = [] → Gathered r
  | add {r : Results} (sink : ResultSink) (source : Found) :
    Gathered r → Gathered (r.add sink source)
  | merge {a b : Results} : Gathered a → Gathered b → Gathered (a.merge b)

/-- Every sink has one group, and every group some sources, each once. -/
structure Tidy (r : Results) : Prop where
  sinks : (r.groups.map (·.sink.id)).Nodup
  sources : ∀ g ∈ r.groups, g.sources ≠ [] ∧ (g.sources.map (·.origin)).Nodup

theorem Tidy.add (h : r.Tidy) (sink : ResultSink) (source : Found) : (r.add sink source).Tidy := by
  unfold Results.add
  dsimp only
  split
  · refine ⟨?_, fun g hg => ?_⟩
    · have hsinks : (fun g : SinkGroup => g.sink.id) ∘ (fun g => if sink.same g.sink then
          { g with sources := addSource g.sources source } else g) = (·.sink.id) := by
        funext g
        dsimp only [Function.comp]
        split <;> rfl
      rw [map_map, hsinks]
      exact h.sinks
    · obtain ⟨k, hk, rfl⟩ := List.mem_map.mp hg
      have hsources := h.sources k hk
      unfold addSource
      split
      · dsimp only
        split
        · exact hsources
        · next hnew =>
          simp only [Found.same, any_eq_true, beq_iff_eq, not_exists, not_and] at hnew
          grind
      · exact hsources
  · next hnew =>
    simp only [any_eq_true, same_iff, not_exists, not_and] at hnew
    have hsinks := h.sinks
    have hsources := h.sources
    exact ⟨by grind, by grind⟩

theorem Gathered.tidy (h : r.Gathered) : r.Tidy := by
  induction h with
  | empty h => exact ⟨by simp [h], by simp [h]⟩
  | add sink source _ ih => exact ih.add sink source
  | @merge a b _ _ ih _ =>
    have hgroups : Tidy (b.groups.foldl
        (fun r g => g.sources.foldl (fun r s => r.add g.sink s) r) a) :=
      foldlRecOn _ _ ih fun _ hr g _ => foldlRecOn _ _ hr fun _ hr s _ => hr.add g.sink s
    exact ⟨hgroups.sinks, hgroups.sources⟩

def stored (r : Results) : List Connection := r.groups.flatMap fun g => g.sources.map (⟨·, g.sink⟩)

theorem mem_connections : c ∈ r.connections ↔ c ∈ r.stored := mem_mergeSort

theorem Tidy.filter_stored (h : r.Tidy) {g : SinkGroup} (hg : g ∈ r.groups) :
    (r.stored.filter (·.sink.same g.sink)).map (·.source) = g.sources := by
  have hsinks := h.sinks
  unfold stored
  generalize r.groups = groups at hg hsinks
  induction groups with
  | nil => cases hg
  | cons k l ih =>
    obtain ⟨hk, hl⟩ := nodup_cons.mp hsinks
    rw [flatMap_cons, filter_append, map_append]
    rcases mem_cons.mp hg with rfl | hg
    · have hrest : ∀ c ∈ l.flatMap fun g => g.sources.map (⟨·, g.sink⟩ : Found → Connection),
          ¬ c.sink.same g.sink := by
        simp only [same_iff]
        grind
      rw [filter_eq_nil_iff.mpr hrest]
      simp [filter_map, Function.comp_def, same_iff.mpr]
    · have hother : k.sink.same g.sink = false := by
        rw [Bool.eq_false_iff, ne_eq, same_iff]
        exact fun h => hk (List.mem_map.mpr ⟨g, hg, h.symm⟩)
      rw [ih hg hl]
      simp [filter_map, Function.comp_def, hother]

/-! ## The order of connections -/

def place (c : Connection) : ℕ ×ₗ ℕ ×ₗ String ×ₗ String :=
  toLex (c.sink.stmt, toLex (c.source.origin.stmt,
    toLex (c.sink.path.text, c.source.origin.path.text)))

theorem before_iff : before c d ↔ place c ≤ place d := by
  simp only [before, place, Prod.Lex.toLex_le_toLex]
  grind

theorem pairwise_connections (r : Results) : r.connections.Pairwise fun c d => before c d := by
  refine pairwise_mergeSort (fun a b c => ?_) (fun a b => ?_) _
  · simp only [before_iff]
    exact le_trans
  · simp only [Bool.or_eq_true, before_iff]
    exact le_total _ _

theorem stmt_le_of_before (h : before c d) : c.sink.stmt ≤ d.sink.stmt := by
  have hplace := before_iff.mp h
  simp only [place, Prod.Lex.toLex_le_toLex] at hplace
  exact hplace.elim le_of_lt fun h => h.1.le

/-! ## Blocks -/

/-- Connections one after another that lead to one sink. -/
def blocks (r : Results) : List (List Connection) :=
  r.connections.splitBy fun c d => c.sink.same d.sink

theorem flatten_blocks (r : Results) : r.blocks.flatten = r.connections := flatten_splitBy _ _

/-- The announcement of a sink, and the lines of its sources. -/
def blockLines : List Connection → List String
  | [] => []
  | c :: rest => ("Found a flow to sink " ++ c.sink.text ++ ", from the following sources:") ::
      (c :: rest).map ("\t- " ++ ·.source.text)

def OneSink (l : List Connection) : Prop := ∀ c ∈ l, ∀ d ∈ l, c.sink.id = d.sink.id

def Differ (l l' : List Connection) : Prop := ∀ c ∈ l, ∀ d ∈ l', c.sink.id ≠ d.sink.id

theorem oneSink_of_mem (hl : l ∈ r.blocks) : OneSink l := by
  let R (c d : Connection) : Prop := c.sink.id = d.sink.id
  have : Trans R R R := ⟨Eq.trans⟩
  have : Std.Symm R := ⟨fun _ _ => Eq.symm⟩
  have hchain : l.IsChain R := (isChain_of_mem_splitBy hl).imp fun _ _ => same_iff.mp
  exact fun c hc d hd => hchain.pairwise.forall_of_forall (R := R) (fun _ _ => rfl) hc hd

theorem isChain_blocks (r : Results) : r.blocks.IsChain Differ := by
  refine IsChain.imp_of_mem_imp ?_ (isChain_getLast_head_splitBy _ r.connections)
  rintro l l' hl hl' ⟨hne, hne', hlast⟩ c hc d hd hid
  have hsame : (l.getLast hne).sink.id = (l'.head hne').sink.id :=
    (oneSink_of_mem hl _ (getLast_mem hne) c hc).trans
      (hid.trans (oneSink_of_mem hl' d hd _ (head_mem hne')))
  exact Bool.false_ne_true (hlast.symm.trans (same_iff.mpr hsame))

theorem reportLines_congr {t : ResultSink} (h : s.id = t.id) :
    reportLines (some s) l = reportLines (some t) l := by
  cases l with
  | nil => rfl
  | cons c rest =>
    have hsame : c.sink.same s = c.sink.same t := by
      rw [Bool.eq_iff_iff, same_iff, same_iff, h]
    simp only [reportLines, Option.any_some, hsame]

theorem reportLines_append (hl : ∀ c ∈ l, c.sink.id = s.id) (rest : List Connection) : reportLines
    (some s) (l ++ rest) = l.map ("\t- " ++ ·.source.text) ++ reportLines (some s) rest := by
  induction l with
  | nil => rfl
  | cons c l ih =>
    have hc := hl c mem_cons_self
    have hrest := ih fun c hc => hl c (mem_cons_of_mem _ hc)
    simp [reportLines, same_iff.mpr hc, reportLines_congr hc, hrest]

/-- A block is announced if the sink changes with it. -/
theorem reportLines_flatten (hnil : [] ∉ m) (hone : ∀ l ∈ m, OneSink l) (hchain : m.IsChain Differ)
    {current : Option ResultSink} (hnew : ∀ l ∈ m.head?, ∀ c ∈ l, ∀ s ∈ current, c.sink.id ≠ s.id) :
    reportLines current m.flatten = m.flatMap blockLines := by
  induction m generalizing current with
  | nil => rfl
  | cons l m ih =>
    cases l with
    | nil => exact absurd mem_cons_self hnil
    | cons c l =>
      have hc : current.any c.sink.same = false := by
        cases current with
        | none => rfl
        | some s =>
          refine Bool.eq_false_iff.mpr (mt same_iff.mp ?_)
          exact hnew _ rfl c mem_cons_self s rfl
      have hl : ∀ d ∈ l, d.sink.id = c.sink.id := fun d hd =>
        hone _ mem_cons_self d (mem_cons_of_mem _ hd) c mem_cons_self
      have hrest : reportLines (some c.sink) m.flatten = m.flatMap blockLines := by
        refine ih (fun h => hnil (mem_cons_of_mem _ h)) (fun l hl => hone l (mem_cons_of_mem _ hl))
          hchain.tail ?_
        rintro l' hl' d hd _ ⟨⟩
        exact ((isChain_cons.mp hchain).1 l' hl' c mem_cons_self d hd).symm
      simp [reportLines, hc, blockLines, reportLines_append hl, hrest]

theorem reportLines_connections (r : Results) :
    reportLines none r.connections = r.blocks.flatMap blockLines := by
  rw [← flatten_blocks]
  exact reportLines_flatten (nil_notMem_splitBy _ _) (fun _ => oneSink_of_mem) r.isChain_blocks
    fun _ _ _ _ => nofun

/-! ## Sinks that are announced once -/

def announces (s : ResultSink) (l : List Connection) : Bool := l.head?.any (·.sink.same s)

def announcements (r : Results) (s : ResultSink) : List (List Connection) :=
  r.blocks.filter (announces s)

theorem announces_iff (hl : OneSink l) (hc : c ∈ l) : announces s l ↔ c.sink.id = s.id := by
  cases l with
  | nil => cases hc
  | cons d l =>
    rw [← hl d mem_cons_self c hc]
    exact same_iff

theorem flatten_announces (hone : ∀ l ∈ m, OneSink l) :
    (m.filter (announces s)).flatten = m.flatten.filter (·.sink.same s) := by
  induction m with
  | nil => rfl
  | cons l m ih =>
    have hl : OneSink l := hone l mem_cons_self
    rw [flatten_cons, filter_append, ← ih fun k hk => hone k (mem_cons_of_mem _ hk), filter_cons]
    split
    · next hs =>
      rw [filter_eq_self.mpr fun c hc => same_iff.mpr ((announces_iff hl hc).mp hs)]
      rfl
    · next hs =>
      rw [filter_eq_nil_iff.mpr fun c hc h =>
        hs ((announces_iff hl hc).mpr (same_iff.mp h))]
      rfl

theorem exists_announcement (hc : c ∈ r.stored) (hid : c.sink.id = s.id) :
    ∃ l ∈ r.announcements s, c ∈ l := by
  rw [← mem_connections, ← flatten_blocks] at hc
  obtain ⟨l, hl, hcl⟩ := mem_flatten.mp hc
  exact ⟨l, mem_filter.mpr ⟨hl, (announces_iff (oneSink_of_mem hl) hcl).mpr hid⟩, hcl⟩

/-- The second connection leads to another sink of the statement, and lies between two connections
to one sink. -/
structure Between (c x d : Connection) : Prop where
  same : c.sink.id = d.sink.id
  other : x.sink.id ≠ c.sink.id
  stmt : x.sink.stmt = c.sink.stmt
  lower : before c x = true
  upper : before x d = true

theorem pairwise_blocks (r : Results) :
    r.blocks.Pairwise fun l l' => ∀ c ∈ l, ∀ d ∈ l', before c d := by
  have hall := r.pairwise_connections
  rw [← flatten_blocks] at hall
  exact (pairwise_flatten.mp hall).2

theorem pairwise_differ (hnil : [] ∉ m) (hchain : m.IsChain Differ)
    (hsorted : m.Pairwise fun l l' => ∀ c ∈ l, ∀ d ∈ l', before c d)
    (hapart : ∀ c ∈ m.flatten, ∀ x ∈ m.flatten, ∀ d ∈ m.flatten, ¬ Between c x d) :
    m.Pairwise Differ := by
  induction m with
  | nil => exact .nil
  | cons l m ih =>
    obtain ⟨hfirst, hrest⟩ := pairwise_cons.mp hsorted
    have htail : m.Pairwise Differ := ih (fun h => hnil (mem_cons_of_mem _ h)) hchain.tail hrest
      fun c hc x hx d hd => hapart c (mem_append_right _ hc) x (mem_append_right _ hx) d
        (mem_append_right _ hd)
    refine pairwise_cons.mpr ⟨fun l' hl' c hc d hd hid => ?_, htail⟩
    cases m with
    | nil => cases hl'
    | cons k m =>
      have hk : Differ l k := (isChain_cons_cons.mp hchain).1
      rcases mem_cons.mp hl' with rfl | hl'
      · exact hk c hc d hd hid
      · -- A connection of the next block is between the two.
        obtain ⟨x, hx⟩ := exists_mem_of_ne_nil k fun h => hnil (by simp [h])
        have hlow := hfirst k mem_cons_self c hc x hx
        have hhigh := (pairwise_cons.mp hrest).1 l' hl' x hx d hd
        have hstmt : c.sink.stmt = d.sink.stmt := congrArg (·.2.1) hid
        refine hapart c (by simp [hc]) x (by simp [hx]) d ?_ ⟨hid, (hk c hc x hx).symm,
          le_antisymm (hstmt ▸ stmt_le_of_before hhigh) (stmt_le_of_before hlow), hlow, hhigh⟩
        exact mem_flatten_of_mem (mem_cons_of_mem _ (mem_cons_of_mem _ hl')) hd

theorem length_announcements (hdiffer : r.blocks.Pairwise Differ) (hc : c ∈ r.stored) :
    (r.announcements c.sink).length = 1 := by
  have hpairs : (r.announcements c.sink).Pairwise Differ := hdiffer.filter _
  have hid : ∀ l ∈ r.announcements c.sink, ∃ d ∈ l, d.sink.id = c.sink.id := by
    intro l hl
    obtain ⟨hl, hannounces⟩ := mem_filter.mp hl
    obtain ⟨d, hd⟩ := exists_mem_of_ne_nil l (ne_nil_of_mem_splitBy hl)
    exact ⟨d, hd, (announces_iff (oneSink_of_mem hl) hd).mp hannounces⟩
  obtain ⟨l, hl, -⟩ := exists_announcement hc rfl
  match r.announcements c.sink, hpairs, hid, hl with
  | [_], _, _, _ => rfl
  | k :: k' :: _, hpairs, hid, _ =>
    obtain ⟨d, hd, hdc⟩ := hid k mem_cons_self
    obtain ⟨d', hd', hdc'⟩ := hid k' (mem_cons_of_mem _ mem_cons_self)
    exact absurd (hdc.trans hdc'.symm) ((pairwise_cons.mp hpairs).1 k' mem_cons_self d hd d' hd')

/-- What lies strictly between two connections to a sink parts them. -/
theorem one_lt_length_announcements {x : Connection} (hc : c ∈ r.stored) (hx : x ∈ r.stored)
    (hd : d ∈ r.stored) (hsame : c.sink.id = d.sink.id) (hother : x.sink.id ≠ c.sink.id)
    (hlow : before x c = false) (hhigh : before d x = false) :
    1 < (r.announcements c.sink).length := by
  obtain ⟨l, hl, hcl⟩ := exists_announcement hc rfl
  obtain ⟨l', hl', hdl⟩ := exists_announcement hd hsame.symm
  obtain ⟨k, hk, hxk⟩ := exists_announcement hx rfl
  have hne : k ≠ l := by
    rintro rfl
    exact hother (oneSink_of_mem (mem_filter.mp hk).1 x hxk c hcl)
  by_contra hlen
  have hll' : l = l' := by
    obtain ⟨i, hi, rfl⟩ := getElem_of_mem hl
    obtain ⟨j, hj, rfl⟩ := getElem_of_mem hl'
    congr
    omega
  subst hll'
  let R (l l' : List Connection) : Prop :=
    (∀ c ∈ l, ∀ d ∈ l', before c d) ∨ ∀ c ∈ l, ∀ d ∈ l', before d c
  have : Std.Symm R := ⟨fun _ _ h => h.symm.imp (fun h c hc d hd => h d hd c hc)
    fun h c hc d hd => h d hd c hc⟩
  have hsorted : r.blocks.Pairwise R := r.pairwise_blocks.imp .inl
  rcases hsorted.forall (mem_filter.mp hk).1 (mem_filter.mp hl).1 hne with hfirst | hfirst
  · exact Bool.false_ne_true (hlow.symm.trans (hfirst x hxk c hcl))
  · exact Bool.false_ne_true (hhigh.symm.trans (hfirst x hxk d hdl))

/-- **A report does not always group connections by sink.** What stands below the announcements of a
sink are its sources, each once. If no other sink of the statement comes between the connections to
a sink, there is one announcement; if one is strictly between them, there are more. -/
theorem text_announces (h : r.Gathered) :
    r.text = String.join (((if r.isEmpty then ["No results found (" ++ r.termination.text ++ ")"]
      else []) ++ r.blocks.flatMap blockLines ++ r.faults.map ("Fault: " ++ ·)).map (· ++ "\n")) ∧
    (r.groups.map (·.sink.id)).Nodup ∧
    (∀ g ∈ r.groups, (g.sources.map (·.origin)).Nodup ∧
      ((r.announcements g.sink).flatten.map (·.source)).Perm g.sources) ∧
    ((∀ c ∈ r.stored, ∀ x ∈ r.stored, ∀ d ∈ r.stored, ¬ Between c x d) →
      ∀ g ∈ r.groups, (r.announcements g.sink).length = 1) ∧
    ∀ c ∈ r.stored, ∀ x ∈ r.stored, ∀ d ∈ r.stored, c.sink.id = d.sink.id →
      x.sink.id ≠ c.sink.id → before x c = false → before d x = false →
      1 < (r.announcements c.sink).length := by
  have htidy := h.tidy
  refine ⟨?_, htidy.sinks, fun g hg => ⟨(htidy.sources g hg).2, ?_⟩, fun hapart g hg => ?_,
    fun _ hc _ hx _ hd => one_lt_length_announcements hc hx hd⟩
  · rw [← reportLines_connections]
    rfl
  · rw [announcements, flatten_announces fun _ => oneSink_of_mem, flatten_blocks,
      ← htidy.filter_stored hg]
    exact ((mergeSort_perm _ _).filter _).map _
  · have hdiffer : r.blocks.Pairwise Differ := by
      refine pairwise_differ (nil_notMem_splitBy _ _) r.isChain_blocks r.pairwise_blocks ?_
      simpa only [flatten_blocks, mem_connections] using hapart
    obtain ⟨x, hx⟩ := exists_mem_of_ne_nil _ (htidy.sources g hg).1
    exact length_announcements (c := ⟨x, g.sink⟩) hdiffer
      (mem_flatMap.mpr ⟨g, hg, List.mem_map.mpr ⟨x, hx, rfl⟩⟩)

/-! ## Two sinks of one call -/

def sinkAt (n : StmtId) (name : String) : ResultSink where
  definition := ⟨.sink, "send", none⟩
  stmt := n
  path := { base := some ⟨0, name, .cls "App"⟩ }

def sourceAt (n : StmtId) : Found := ⟨⟨⟨.source, "read", none⟩, {}, n, none⟩, false⟩

def sending (other : StmtId) : Results :=
  ((({} : Results).add (sinkAt 5 "x") (sourceAt 1)).add (sinkAt other "y") (sourceAt 2)).add
    (sinkAt 5 "x") (sourceAt 3)

theorem gathered_sending (other : StmtId) : (sending other).Gathered :=
  .add _ _ (.add _ _ (.add _ _ (.empty rfl)))

theorem sending_apart : ((sending 6).announcements (sinkAt 5 "x")).length = 1 := by
  have hstmts : ∀ c ∈ (sending 6).stored, ∀ x ∈ (sending 6).stored,
      x.sink.stmt = c.sink.stmt → x.sink.id = c.sink.id := by decide
  have hgroup : ⟨sinkAt 5 "x", [sourceAt 1, sourceAt 3]⟩ ∈ (sending 6).groups := .head _
  exact (text_announces (gathered_sending 6)).2.2.2.1
    (fun c hc x hx _ _ h => h.other (hstmts c hc x hx h.stmt)) _ hgroup

/-- The source of `y` is between the two of `x`, so `x` is announced again. -/
theorem sending_at_once :
    (sending 5).Gathered ∧ 1 < ((sending 5).announcements (sinkAt 5 "x")).length := by
  have hstored : (sending 5).stored = [⟨sourceAt 1, sinkAt 5 "x"⟩, ⟨sourceAt 3, sinkAt 5 "x"⟩,
      ⟨sourceAt 2, sinkAt 5 "y"⟩] := rfl
  refine ⟨gathered_sending 5, one_lt_length_announcements (c := ⟨sourceAt 1, sinkAt 5 "x"⟩)
    (x := ⟨sourceAt 2, sinkAt 5 "y"⟩) (d := ⟨sourceAt 3, sinkAt 5 "x"⟩) ?_ ?_ ?_ rfl (by decide)
    (by decide) (by decide)⟩
  all_goals simp [hstored]

end Results
end LeakTrace
