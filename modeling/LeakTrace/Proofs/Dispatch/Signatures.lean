import LeakTrace.Models
import LeakTrace.Oracle
import LeakTrace.Proofs.Dispatch.Callees

/-!
# Signatures tell methods apart

Methods are found by the text of their signature: in the table of methods, along the superclasses,
among sources and sinks and among models. **The text of a signature says which method it is**,
however many parameters it has and however arrays are nested, if the names of types and of the method
have nothing in them that separates the parts. So no lookup takes one overload for another.
-/

namespace LeakTrace
open List

/-! ## Types -/

namespace Ty

/-- A class in it has a name that nothing else in a signature reads like. -/
def Plain (t : Ty) : Prop :=
  ∀ n ∈ t.innermost.className?, n ≠ "" ∧ (∀ c ∈ [' ', ',', '('], c ∉ n.toList) ∧
    ¬"[]".toList <:+ n.toList ∧ ofName n = .cls n

variable {t : Ty} {l : List Ty}

theorem ofText_text (h : t.Plain) : ofText t.text = t := by
  unfold ofText
  induction t with
  | array u ih =>
    rw [text, String.toList_append, reverse_append]
    exact congrArg Ty.array (ih h)
  | cls n =>
    obtain ⟨-, -, hend, hname⟩ := h n rfl
    rw [text]
    unfold ofReversed
    split
    · next rest hrest =>
      refine absurd ⟨rest.reverse, ?_⟩ hend
      simpa using (congrArg List.reverse hrest).symm
    · rw [reverse_reverse, String.ofList_toList, hname]
  | _ => rfl

theorem Plain.text (h : t.Plain) : t.text.toList ≠ [] ∧ ∀ c ∈ [' ', ',', '('], c ∉ t.text.toList := by
  induction t with
  | array u ih =>
    obtain ⟨hne, hchars⟩ := ih h
    rw [Ty.text, String.toList_append]
    refine ⟨append_ne_nil_of_left_ne_nil hne _, fun c hc => ?_⟩
    rw [mem_append, not_or]
    exact ⟨hchars c hc, by revert c; simp⟩
  | cls n =>
    obtain ⟨hne, hchars, -⟩ := h n rfl
    exact ⟨mt String.toList_eq_nil_iff.mp hne, hchars⟩
  | _ => simp [Ty.text]

/-- The texts of types, with commas between them. -/
def joined (l : List Ty) : List Char := [','].intercalate (l.map (·.text.toList))

theorem read_joined (hl : ∀ t ∈ l, t.Plain) :
    (((joined l).splitOn ',').filter (· ≠ [])).map (fun cs => ofText (String.ofList cs)) = l := by
  cases l with
  | nil => simp [joined]
  | cons t rest =>
    have hsplit : (joined (t :: rest)).splitOn ',' = (t :: rest).map (·.text.toList) :=
      splitOn_intercalate ',' (forall_mem_map.mpr fun u hu => (hl u hu).text.2 ',' (by decide))
        (cons_ne_nil _ _)
    rw [hsplit, filter_eq_self.mpr (forall_mem_map.mpr fun u hu => by simpa using (hl u hu).text.1),
      map_map]
    refine (map_congr_left fun u hu => ?_).trans (map_id _)
    rw [Function.comp_apply, String.ofList_toList, ofText_text (hl u hu), id]

theorem not_mem_joined {x : Char} (hx : x ∈ [' ', '(']) (hl : ∀ t ∈ l, t.Plain) : x ∉ joined l := by
  obtain ⟨hsep, hcomma⟩ : x ∈ [' ', ',', '('] ∧ x ≠ ',' := by revert x; simp
  unfold joined
  induction l with
  | nil => simp
  | cons t rest ih =>
    have ht := (hl t mem_cons_self).text.2 x hsep
    have hrest := ih fun v hv => hl v (mem_cons_of_mem t hv)
    cases rest with
    | nil => simpa using ht
    | cons u rest => simp_all

end Ty

/-! ## Signatures -/

theorem append_cons_inj_of_last {x : Char} {l l' r r' : List Char} (hr : x ∉ r) (hr' : x ∉ r')
    (h : l ++ x :: r = l' ++ x :: r') : l = l' ∧ r = r' := by
  rcases append_eq_append_iff.mp h with ⟨mid, rfl, hmid⟩ | ⟨mid, rfl, hmid⟩
  · cases mid with
    | nil => simpa using hmid
    | cons c mid => grind
  · cases mid with
    | nil => simpa [eq_comm] using hmid
    | cons c mid => grind

namespace MethodRef

/-- Nothing is asked of the name of the declaring class. -/
structure Plain (m : MethodRef) : Prop where
  name : ' ' ∉ m.name.toList
  params : ∀ t ∈ m.params, t.Plain
  ret : m.ret.Plain

variable {m n : MethodRef} {c d : String}

theorem toList_signatureIn (c : String) (m : MethodRef) :
    (signatureIn c m.subSignature).toList = ('<' :: c.toList ++ [':'] ++ ' ' :: m.ret.text.toList) ++
      ' ' :: (m.name.toList ++ '(' :: (Ty.joined m.params ++ [')', '>'])) := by
  simp [signatureIn, subSignature, Ty.joined, String.toList_intercalate, Function.comp_def]

section
variable (hm : m.Plain) (hn : n.Plain)
include hm hn

/-- The text is read from its end: spaces stand on both sides of the result, and none comes later. -/
theorem eq_of_signatureIn_eq (h : signatureIn c m.subSignature = signatureIn d n.subSignature) :
    c = d ∧ m.name = n.name ∧ m.params = n.params ∧ m.ret = n.ret := by
  have hspace (k : MethodRef) (hk : k.Plain) :
      ' ' ∉ k.name.toList ++ '(' :: (Ty.joined k.params ++ [')', '>']) := by
    simp [hk.name, Ty.not_mem_joined _ hk.params]
  have hopen (k : MethodRef) (hk : k.Plain) : '(' ∉ Ty.joined k.params ++ [')', '>'] := by
    simp [Ty.not_mem_joined _ hk.params]
  have htext := congrArg String.toList h
  rw [toList_signatureIn, toList_signatureIn] at htext
  obtain ⟨hfront, hcall⟩ := append_cons_inj_of_last (hspace m hm) (hspace n hn) htext
  obtain ⟨howner, hret⟩ := append_cons_inj_of_last (hm.ret.text.2 ' ' (by decide))
    (hn.ret.text.2 ' ' (by decide)) hfront
  obtain ⟨hname, hparams⟩ := append_cons_inj_of_last (hopen m hm) (hopen n hn) hcall
  refine ⟨String.toList_inj.mp (by simpa using howner), String.toList_inj.mp hname, ?_, ?_⟩
  · rw [← Ty.read_joined hm.params, append_cancel_right hparams, Ty.read_joined hn.params]
  · rw [← Ty.ofText_text hm.ret, String.toList_inj.mp hret, Ty.ofText_text hn.ret]

theorem eq_of_signature_eq (h : m.signature = n.signature) : m = n := by
  obtain ⟨howner, hname, hparams, hret⟩ := eq_of_signatureIn_eq hm hn h
  cases m
  cases n
  simp_all

end
end MethodRef

/-! ## Tables -/

namespace Program
variable {p : Program} {m : MethodRef} {c : String} {x : Method} (hm : m.Plain)
  (hp : ∀ x ∈ p.methods, x.sig.Plain)
include hm hp

theorem Listed.sig_eq (h : p.Listed c m.subSignature x) :
    x ∈ p.methods ∧ x.sig = { m with owner := c } := by
  obtain ⟨-, -, -, hx, -⟩ := id h
  exact ⟨h.mem, MethodRef.eq_of_signature_eq (hp x h.mem) ⟨hm.name, hm.params, hm.ret⟩ hx⟩

theorem FindsFirst.sig_eq (h : p.FindsFirst c m.subSignature x) :
    x ∈ p.methods ∧ ∃ d, x.sig = { m with owner := d } := by
  obtain ⟨-, ⟨d, -, hd⟩, -⟩ := h
  obtain ⟨hmem, hx⟩ := hd.sig_eq hm hp
  exact ⟨hmem, d, hx⟩

end Program

section
variable {key k : String} (h : key ≠ k)
include h

theorem Oracle.lookup_extend {α : Type} [BEq α] {l : List (String × List α)} {new : List α} :
    lookup (extend l key new) k = lookup l k := by
  have hmap (g : String × List α → String × List α) (hg : ∀ e, (g e).1 = key) :
      (l.map fun e => if e.1 == key then g e else e).find? (·.1 == k) = l.find? (·.1 == k) := by
    induction l with
    | nil => rfl
    | cons e rest ih => by_cases hkey : e.1 = key <;> simp_all [find?_cons]
  unfold extend lookup
  split
  · exact congrArg _ (hmap _ fun _ => rfl)
  · simp [find?_append, h]

/-- An entry that takes the place of those with its key is found by no other key. -/
theorem find?_replace {α : Type} (g : α → String) {l : List α} {a : α} (ha : g a = key) :
    (l.filter (g · != key) ++ [a]).find? (g · == k) = l.find? (g · == k) := by
  rw [find?_append, find?_filter, find?_singleton, if_neg (by simpa [ha] using h), Option.or_none]
  congr 1
  funext b
  grind

theorem Models.find?_replaced {ms : Models} {x : Model} (hx : x.signature = key) :
    (ms.insert x).find? k = ms.find? k := by
  subst hx
  exact find?_replace h Model.signature rfl

end

theorem Models.signature_apply {ms : Models} {sig : String} (e : Effect) :
    (e.apply ((ms.find? sig).getD { signature := sig })).signature = sig := by
  cases hfound : ms.find? sig with
  | none => cases e <;> rfl
  | some x =>
    have hx : x.signature = sig := by simpa using find?_some hfound
    cases e <;> exact hx

/-- **Signatures identify methods.** The table of methods, the walk along superclasses and the
dispatch of a call find methods that were asked for, and what is said about one method as a source, a
sink or by a model makes no difference to another. -/
theorem signatures_identify_methods {m n : MethodRef} (hm : m.Plain) (hn : n.Plain) :
    (m.signature = n.signature ↔ m = n) ∧
    (m.subSignature = n.subSignature ↔ m.name = n.name ∧ m.params = n.params ∧ m.ret = n.ret) ∧
    (∀ p : Program, (∀ x ∈ p.methods, x.sig.Plain) →
      (∀ x, p.bySignature? m.signature = some x → x.sig = m) ∧
      (∀ c x, p.resolve? c m.subSignature = some x → ∃ d, x.sig = { m with owner := d }) ∧
      ∀ call : Call, call.method = m → ∀ k ∈ p.targets call,
        ∃ x ∈ p.methods, x.id = k ∧ ∃ d, x.sig = { m with owner := d }) ∧
    (m ≠ n → ∀ (o : Oracle) (ms : Models) targets i only effect,
      Oracle.lookup (o.addSource m targets).callSources n.signature =
        Oracle.lookup o.callSources n.signature ∧
      Oracle.lookup (o.addParamSource m i).paramSources n.signature =
        Oracle.lookup o.paramSources n.signature ∧
      Oracle.lookup (o.addSink m only).callSinks n.signature =
        Oracle.lookup o.callSinks n.signature ∧
      (n.signature ∈ (o.addReturnSink m).returnSinks ↔ n.signature ∈ o.returnSinks) ∧
      (ms.addEffect m effect).find? n.signature = ms.find? n.signature) := by
  refine ⟨⟨MethodRef.eq_of_signature_eq hm hn, congrArg _⟩, ⟨fun h => ?_, ?_⟩,
    fun p hp => ⟨fun x hx => ?_, fun c x hx => ?_, ?_⟩, fun h o ms targets i only effect => ?_⟩
  · exact (MethodRef.eq_of_signatureIn_eq hm hn (congrArg (MethodRef.signatureIn "") h)).2
  · rintro ⟨hname, hparams, hret⟩
    rw [MethodRef.subSignature, hname, hparams, hret, MethodRef.subSignature]
  · exact ((Program.listed_iff.mpr hx).sig_eq hm hp).2
  · rw [Program.resolve?_eq_inherited?, Program.inherited?_eq_some_iff] at hx
    exact (hx.sig_eq hm hp).2
  · rintro call rfl k hk
    obtain ⟨c, x, hx, hid⟩ := Program.mem_targets hk
    obtain ⟨hmem, hsig⟩ := hx.sig_eq hm hp
    exact ⟨x, hmem, hid, hsig⟩
  · have hkey : m.signature ≠ n.signature := mt (MethodRef.eq_of_signature_eq hm hn) h
    refine ⟨Oracle.lookup_extend hkey, Oracle.lookup_extend hkey,
      congrArg (Option.map _) (find?_replace hkey Prod.fst rfl), ?_,
      Models.find?_replaced hkey (Models.signature_apply effect)⟩
    unfold Oracle.addReturnSink
    split
    · rfl
    · simp [hkey.symm]

/-- Two overloads whose texts read alike up to their parameters, which are arrays. -/
theorem overloads_identified :
    let put (params : List Ty) : MethodRef := ⟨"app.Box", "put", params, .array (.cls "app.Item")⟩
    let pair := put [.array (.array (.cls "app.Item")), .int]
    let single := put [.array (.cls "app.Item")]
    pair.Plain ∧ single.Plain ∧ pair.signature ≠ single.signature ∧
      pair.subSignature ≠ single.subSignature := by
  intro put pair single
  have hitem : (Ty.cls "app.Item").Plain := by
    rintro n ⟨⟩
    exact ⟨by decide, by simp, by decide, by decide⟩
  have hint : Ty.int.Plain := by simp [Ty.Plain, Ty.innermost, Ty.className?]
  have hpair : pair.Plain := ⟨by decide, by simpa [pair, put] using ⟨hitem, hint⟩, hitem⟩
  have hsingle : single.Plain := ⟨by decide, forall_mem_singleton.mpr hitem, hitem⟩
  obtain ⟨hsig, hsub, -⟩ := signatures_identify_methods hpair hsingle
  exact ⟨hpair, hsingle, mt hsig.mp (by decide), mt hsub.mp (by decide)⟩

end LeakTrace
