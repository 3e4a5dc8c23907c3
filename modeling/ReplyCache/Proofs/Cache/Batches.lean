import ReplyCache.Proofs.Cache.Ledger
import ReplyCache.Proofs.Cache.Reads
import ReplyCache.Proofs.Key.Element
import ReplyCache.Proofs.Store.Recall

namespace ReplyCache

namespace Pending

theorem lastOf_of_split {k : Key} {p : Pending} (hp : p.item.key = k) (pre : List Pending)
    {post : List Pending} (hpost : ∀ q ∈ post, q.item.key ≠ k) :
    lastOf k (pre ++ p :: post) = some p := by
  rw [lastOf_append, ← List.singleton_append, lastOf_append, lastOf_eq_none.2 hpost,
    lastOf_singleton, if_pos hp]
  rfl

end Pending

namespace Cache

variable {σ : Type} {store : Store σ} {c : Cache σ} {now : Moment} {form : Form} {a : Call}
  {inputs replies : List Json}

theorem submitted_list (hadmits : c.admits a = true) (hinputs : a.inputs? = some inputs)
    (hlength : inputs.length = replies.length) :
    c.submitted now (.writeBatch form a replies) =
      (c.itemsOf now a inputs replies).map fun i => ⟨i, (c.writeOptions a).lifetime⟩ := by
  simp only [submitted, submittedBatch]
  rw [if_pos hadmits, hinputs]
  exact if_neg (not_not_intro hlength)

theorem itemsOf_around {i : Nat} {x reply : Json} (hx : inputs[i]? = some x)
    (hreply : replies[i]? = some reply) (hfits : reply.textSize ≤ c.settings.largest) :
    ∃ pre post, c.itemsOf now a inputs replies =
        pre ++ c.itemOf now (a.withInput x) reply :: post ∧
      ∀ q ∈ post, ∃ j y r, i < j ∧ inputs[j]? = some y ∧ replies[j]? = some r ∧
        r.textSize ≤ c.settings.largest ∧ q = c.itemOf now (a.withInput y) r := by
  have hzip : (inputs.zip replies)[i]? = some (x, reply) :=
    List.getElem?_zip_eq_some.2 ⟨hx, hreply⟩
  obtain ⟨hi, hget⟩ := List.getElem?_eq_some_iff.1 hzip
  have hsplit : inputs.zip replies =
      (inputs.zip replies).take i ++ (x, reply) :: (inputs.zip replies).drop (i + 1) := by
    rw [← hget, ← List.drop_eq_getElem_cons hi, List.take_append_drop]
  let kept := fun es : List (Json × Json) =>
    (es.filter fun e => decide (e.2.textSize ≤ c.settings.largest)).map fun e =>
      c.itemOf now (a.withInput e.1) e.2
  refine ⟨kept ((inputs.zip replies).take i), kept ((inputs.zip replies).drop (i + 1)), ?_,
    fun q hq => ?_⟩
  · change kept (inputs.zip replies) = _
    conv_lhs => rw [hsplit]
    simp only [kept]
    rw [List.filter_append, List.map_append, List.filter_cons_of_pos (by simpa using hfits),
      List.map_cons]
  · obtain ⟨e, he, rfl⟩ := List.mem_map.1 hq
    obtain ⟨hmem, hsize⟩ := List.mem_filter.1 he
    obtain ⟨m, hm⟩ := List.mem_iff_getElem?.1 hmem
    rw [List.getElem?_drop] at hm
    obtain ⟨hy, hr⟩ := List.getElem?_zip_eq_some.1 hm
    exact ⟨i + 1 + m, e.1, e.2, by omega, hy, hr, by simpa using hsize, rfl⟩

/-- The digest tells the elements of a batch apart, as far as their canonical texts do. -/
def TellsApart (c : Cache σ) (a : Call) (inputs : List Json) : Prop :=
  ∀ x ∈ inputs, ∀ y ∈ inputs,
    c.scheme.digest (a.withInput x) = c.scheme.digest (a.withInput y) →
      c.scheme.canonical (a.withInput x) = c.scheme.canonical (a.withInput y)

instance (c : Cache σ) (a : Call) (inputs : List Json) : Decidable (c.TellsApart a inputs) :=
  inferInstanceAs (Decidable (∀ x ∈ inputs, ∀ y ∈ inputs, _ → _))

section Element

variable {i : Nat} {x reply : Json}

theorem lastOf_batch (hadmits : c.admits a = true) (hinputs : a.inputs? = some inputs)
    (hlength : inputs.length = replies.length)
    (hdigest : c.TellsApart a inputs) (hx : inputs[i]? = some x) (hreply : replies[i]? = some reply)
    (hfits : reply.textSize ≤ c.settings.largest)
    (hlast : ∀ j y r, i < j → inputs[j]? = some y → replies[j]? = some r →
      r.textSize ≤ c.settings.largest →
      y.nonNull?.map Rendering.ofJson ≠ x.nonNull?.map Rendering.ofJson) :
    Pending.lastOf (c.key (a.withInput x)) (c.submitted now (.writeBatch form a replies)) =
      some ⟨c.itemOf now (a.withInput x) reply, (c.writeOptions a).lifetime⟩ := by
  obtain ⟨pre, post, hitems, hpost⟩ := itemsOf_around hx hreply hfits
  rw [submitted_list hadmits hinputs hlength, hitems, List.map_append, List.map_cons]
  have hkey : (⟨c.itemOf now (a.withInput x) reply, (c.writeOptions a).lifetime⟩ :
      Pending).item.key = c.key (a.withInput x) := rfl
  refine Pending.lastOf_of_split hkey _ ?_
  intro q hq hsame
  obtain ⟨item, hitem, rfl⟩ := List.mem_map.1 hq
  obtain ⟨j, y, r, hj, hy, hr, hsize, rfl⟩ := hpost item hitem
  have hbx := Call.single_withInput a x
  have hby := Call.single_withInput a y
  have htext : c.scheme.canonical (a.withInput y) = c.scheme.canonical (a.withInput x) :=
    hdigest y (List.mem_of_getElem? hy) x (List.mem_of_getElem? hx) (hby.digest_eq hbx hsame)
  exact hlast j y r hj hy hr hsize (hby.rendering_eq hbx htext)

/-- After a batch over a store that keeps its writes and recalls them, each call for one element
alone is answered with the reply to that, unless a reply to an element of the same rendering comes
later in the batch. -/
theorem hit_of_batch {Holds : σ → Shelf → Prop} {good : Moment → Prop} {takes : Pending → Prop}
    (hkeeps : store.Keeps Holds good takes) (hrecalls : store.Recalls Holds) (hnow : good now)
    (hfinite : now.wall.isFinite = true) {sh : Shelf} (hholds : Holds c.contents sh)
    (htakes : ∀ p ∈ c.submitted now (.writeBatch form a replies), takes p)
    (hadmits : c.admits a = true) (hage : a.directives.maxAge = none)
    (hinputs : a.inputs? = some inputs) (hlength : inputs.length = replies.length)
    (hdigest : c.TellsApart a inputs) (hx : inputs[i]? = some x) (hreply : replies[i]? = some reply)
    (hnull : reply ≠ .null) (hfits : reply.textSize ≤ c.settings.largest)
    (hlast : ∀ j y r, i < j → inputs[j]? = some y → replies[j]? = some r →
      r.textSize ≤ c.settings.largest →
      y.nonNull?.map Rendering.ofJson ≠ x.nonNull?.map Rendering.ofJson)
    {b : Call} (hb : a.Single x b) (now' : Moment) (form' : Form) :
    let written := (c.step store now (.writeBatch form a replies)).2
    (written.step store now' (.read form' b)).1 = .ok (.hit reply) := by
  intro written
  have hsettings : written.settings = c.settings := step_settings store now _ c
  have hwaits : (Operation.writeBatch form a replies).waits = false := by
    cases form with
    | blocking => rfl
    | async => simp [Operation.waits, hinputs]
  have hheld : Holds written.contents
      (sh.putAll (c.submitted now (.writeBatch form a replies))) :=
    (holds_handed hkeeps hnow rfl (.inl hwaits) hholds htakes).1
  have hkey : written.key b = c.key (a.withInput x) :=
    (key_congr hsettings b).trans (hb.key_eq (Call.single_withInput a x) c.scheme)
  have hput : sh.putAll (c.submitted now (.writeBatch form a replies)) (written.key b) =
      some ⟨c.itemOf now (a.withInput x) reply, (c.writeOptions a).lifetime⟩ := by
    rw [hkey, Shelf.putAll_apply,
      lastOf_batch hadmits hinputs hlength hdigest hx hreply hfits hlast]
    rfl
  have hadmits' : written.admits b = true := by
    rw [admits, hsettings, hb.admits_eq]
    exact hadmits
  have hage' : b.directives.maxAge = none := by
    rw [hb.directives_eq]
    exact hage
  exact (hit_iff_reply hrecalls hheld now' form' hadmits' hage' hput hfinite reply).2 ⟨rfl, hnull⟩

end Element

def listed : Call :=
  ((Call.asking (.array [.string "a", .null, .string "b"])).insert Call.keyName
    (.string "whole")).insert Call.runtimeName
      (.object [(Call.namespaceName, .string "n"), (Call.presetKeyName, .string "whole")])

theorem hit_of_batch_listed :
    let c : Cache Memory :=
      { settings := { largest := 4 }, contents := Memory.ofCapacity 3, buffer := none }
    let written := (c.step Memory.store ⟨0, 0⟩
      (.writeBatch .async listed [.string "x", .string "large", .string "y"])).2
    (written.step Memory.store ⟨1, 1⟩ (.read .blocking (listed.withInput (.string "b")))).1 =
      .ok (.hit (.string "y")) := by
  intro c written
  let ks := [c.key (listed.withInput (.string "a")), c.key (listed.withInput (.string "b"))]
  have hempty : Memory.Lasts ks c.contents fun _ => none :=
    ⟨Memory.holds_ofCapacity (by decide +kernel) none, Shelf.all_empty _⟩
  have hlast : ∀ j, 2 < j → [Json.string "a", .null, .string "b"][j]? = none :=
    fun j hj => List.getElem?_eq_none hj
  exact @hit_of_batch _ Memory.store c ⟨0, 0⟩ .async listed [.string "a", .null, .string "b"]
    [.string "x", .string "large", .string "y"] 2 (.string "b") (.string "y") _ _ _
    (Memory.keeps_untimed ks) (Memory.recalls ks) trivial (by decide +kernel) _ hempty
    (by decide +kernel) (by decide +kernel) (by decide +kernel) rfl rfl
    (by decide +kernel) rfl rfl Json.noConfusion (by decide +kernel)
    (fun j y r hj hy => by rw [hlast j hj] at hy; cases hy) _
    (Call.single_withInput _ _) ⟨1, 1⟩ .blocking

end Cache

end ReplyCache
