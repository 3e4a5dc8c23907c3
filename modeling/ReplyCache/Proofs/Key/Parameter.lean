import ReplyCache.Proofs.Key.Isolation

namespace ReplyCache

namespace Members

variable {α β : Type}

theorem insert_eq {m : List (String × α)} (h : Sorted m) (n : String) (x : α) :
    insert n x m = m.filter (·.1 < n) ++ (n, x) :: m.filter (n < ·.1) := by
  induction m with
  | nil => rfl
  | cons e m ih =>
      obtain ⟨k, y⟩ := e
      obtain ⟨hlt, hm⟩ := List.pairwise_cons.1 h
      have hasymm : ∀ {a b : String}, a < b → ¬ b < a := fun hab hba =>
        String.lt_irrefl _ (String.lt_trans hab hba)
      -- up to the first name everything stands behind
      have hbehind : ¬ k < n → m.filter (·.1 < n) = [] ∧ m.filter (n < ·.1) = m := by
        intro hk
        have hafter : ∀ e ∈ m, n < e.1 := fun e he =>
          Std.lt_of_le_of_lt (String.not_lt.1 hk) (hlt e he)
        refine ⟨List.filter_eq_nil_iff.2 fun e he => ?_, List.filter_eq_self.2 fun e he => ?_⟩
        · exact Bool.eq_false_iff.1 (decide_eq_false (hasymm (hafter e he)))
        · exact decide_eq_true (hafter e he)
      simp only [insert]
      by_cases hk : k = n
      · subst hk
        obtain ⟨hnone, hall⟩ := hbehind (String.lt_irrefl k)
        rw [if_pos rfl, List.filter_cons_of_neg (by simp), hnone,
          List.filter_cons_of_neg (by simp), hall]
        rfl
      · rw [if_neg hk]
        by_cases hn : n < k
        · obtain ⟨hnone, hall⟩ := hbehind (hasymm hn)
          rw [if_pos hn, List.filter_cons_of_neg (by simpa using hasymm hn), hnone,
            List.filter_cons_of_pos (by simpa using hn), hall]
          rfl
        · have hkn : k < n := lt_of_not_lt hn hk
          rw [if_neg hn, List.filter_cons_of_pos (by simpa using hkn),
            List.filter_cons_of_neg (by simpa using hn), ih hm]
          rfl

theorem project_append (P : String → Bool) (f : α → Option β) (l m : List (String × α)) :
    project P f (l ++ m) = project P f l ++ project P f m := by
  simp [project]

end Members

namespace Call

theorem get?_insert (c : Call) (n : String) (v : Json) (m : String) :
    (c.insert n v).get? m = if m = n then some v else c.get? m := by
  split
  · rename_i heq
    rw [heq]
    exact SortedMap.get?_insert_self c.params n v
  · rename_i hne
    exact SortedMap.get?_insert_of_ne c.params hne v

def erase (c : Call) (n : String) : Call := ⟨c.params.erase n⟩

def SameBut (n : String) (a b : Call) : Prop := ∀ m, m ≠ n → a.get? m = b.get? m

theorem sameBut_insert (c : Call) (n : String) (v w : Json) :
    SameBut n (c.insert n v) (c.insert n w) := by
  intro m hm
  rw [get?_insert, get?_insert, if_neg hm, if_neg hm]

theorem sameBut_erase (c : Call) (n : String) (v : Json) :
    SameBut n (c.insert n v) (c.erase n) := by
  intro m hm
  rw [get?_insert, if_neg hm]
  exact (SortedMap.get?_erase_of_ne c.params hm).symm

theorem given?_insert_self (c : Call) (n : String) (v : Json) :
    (c.insert n v).given? n = v.nonNull? := by
  rw [given?, get?_insert, if_pos rfl]
  rfl

theorem given?_erase_self (c : Call) (n : String) : (c.erase n).given? n = none :=
  congrArg (·.bind Json.nonNull?) (SortedMap.get?_erase_self c.params n)

end Call

namespace Scheme

variable {s : Scheme} {b b' c : Call} {n : String} {v w : Json}

/-- The parameters that feed a key by their own value alone. -/
def Feeds (s : Scheme) (n : String) : Prop :=
  (n ∈ Param.feeding ∧ n ≠ Param.modelName ∧ n ≠ Param.fileName) ∨
    (s.inclusive = true ∧ Param.isSpecific n = true)

theorem Feeds.not_steering (h : s.Feeds n) : n ∉ Param.steering := by
  rcases h with ⟨hn, -⟩ | ⟨-, hn⟩
  · exact fun hsteering => Param.steering_disjoint_feeding n hsteering hn
  · simp only [Param.isSpecific, Bool.and_eq_true, Bool.not_eq_true'] at hn
    simpa using hn.2

theorem identified_of_sameBut (hn : n ∉ Param.steering) (h : Call.SameBut n b b') :
    Identified b b' := by
  have hget : ∀ m ∈ Param.steering, b.get? m = b'.get? m :=
    fun m hm => h m fun heq => hn (heq ▸ hm)
  have hmetadata : b.metadata? = b'.metadata? :=
    congrArg (·.bind Json.object?) (hget Call.metadataName (by decide))
  have hruntime : b.runtime? = b'.runtime? :=
    Call.runtime?_congr (hget Call.runtimeName (by decide))
  exact {
    resolved := fun field _ => by simp only [Call.resolve?, hmetadata, hruntime]
    metadata := fun field _ => by simp only [Call.metadataString?, hmetadata]
    runtime := by simp only [Call.runtimeString?, hruntime] }

theorem ofParam?_of_sameBut (hn : n ∉ Param.steering) (h : Call.SameBut n b b') {m : String}
    (hm : m ≠ n) : Rendering.ofParam? b m = Rendering.ofParam? b' m :=
  (identified_of_sameBut hn h).ofParam?_eq (fun _ => h m hm)
    fun _ _ => Call.Steered.given?_congr (h m hm)

theorem ofParam?_eq_given? (hmodel : n ≠ Param.modelName) (hfile : n ≠ Param.fileName) :
    Rendering.ofParam? b n = (b.given? n).map Rendering.ofJson := by
  rw [Rendering.ofParam?, if_neg hmodel, if_neg hfile]

theorem specificSegments_insert (hn : Param.isSpecific n = true) :
    ∃ es fs, ∀ v, specificSegments (c.insert n v) =
      es ++ (((v.nonNull?.map Rendering.ofJson).map (n, ·)).toList ++ fs) := by
  let f : Json → Option String := fun v => v.nonNull?.map Rendering.ofJson
  refine ⟨Members.project Param.isSpecific f (c.params.entries.filter (·.1 < n)),
    Members.project Param.isSpecific f (c.params.entries.filter (n < ·.1)), fun v => ?_⟩
  have hentries : (c.insert n v).params.entries = Members.insert n v c.params.entries := rfl
  rw [specificSegments_eq, hentries, Members.insert_eq c.params.sorted, Members.project_append,
    Members.project_cons, if_pos hn]

/-- The segment of a parameter that feeds the key by its value stands at one place and among the
same segments, whatever the value is. -/
theorem segments_at (hn : s.Feeds n) (c : Call) : ∃ es fs, ∀ b, Call.SameBut n b c →
    s.segments b = es ++ ((((b.given? n).map Rendering.ofJson).map (n, ·)).toList ++ fs) := by
  have hothers : ∀ b, Call.SameBut n b c → ∀ m, m ≠ n →
      Rendering.ofParam? b m = Rendering.ofParam? c m :=
    fun b hb m hm => ofParam?_of_sameBut hn.not_steering hb hm
  rcases hn with ⟨hfeeding, hmodel, hfile⟩ | ⟨hinclusive, hspecific⟩
  · obtain ⟨pre, post, hother, hsegments⟩ := segments_around hfeeding
    refine ⟨rendered c pre,
      rendered c post ++ if s.inclusive then specificSegments c else [], fun b hb => ?_⟩
    have hpre : rendered b pre = rendered c pre := rendered_congr fun m hm =>
      hothers b hb m (hother m (List.mem_append_left _ hm)).2
    have hpost : rendered b post = rendered c post := rendered_congr fun m hm =>
      hothers b hb m (hother m (List.mem_append_right _ hm)).2
    have hspecific : specificSegments b = specificSegments c := by
      refine specificSegments_congr fun m hm => Call.Steered.given?_congr (hb m ?_)
      rintro rfl
      simp only [Param.isSpecific, Bool.and_eq_true, Bool.not_eq_true'] at hm
      simp [hfeeding] at hm
    rw [hsegments, ofParam?_eq_given? hmodel hfile, hpre, hpost, hspecific]
  · obtain ⟨es, fs, hsegments⟩ := specificSegments_insert (c := c) hspecific
    refine ⟨feedingSegments c ++ es, fs, fun b hb => ?_⟩
    have hfeeding : feedingSegments b = feedingSegments c := by
      refine rendered_congr fun m hm => hothers b hb m ?_
      rintro rfl
      simp only [Param.isSpecific, Bool.and_eq_true, Bool.not_eq_true'] at hspecific
      simp [hm] at hspecific
    -- a parameter that is absent has no segment, as if it were `null`
    have hgiven : (((b.get? n).getD .null).nonNull?) = b.given? n := by
      rw [Call.given?]
      cases b.get? n <;> rfl
    have hinsert : specificSegments b = specificSegments (c.insert n ((b.get? n).getD .null)) := by
      refine specificSegments_congr fun m _ => ?_
      by_cases hm : m = n
      · rw [hm, Call.given?_insert_self, hgiven]
      · rw [Call.given?, Call.given?, hb m hm, Call.get?_insert, if_neg hm]
    simp only [segments, hinclusive, if_true]
    rw [hfeeding, hinsert, hsegments, hgiven, List.append_assoc]

theorem canonical_eq_iff_rendering (hn : s.Feeds n) (h : Call.SameBut n b b') :
    s.canonical b = s.canonical b' ↔
      (b.given? n).map Rendering.ofJson = (b'.given? n).map Rendering.ofJson := by
  obtain ⟨es, fs, hsegments⟩ := segments_at hn b'
  have hb := hsegments b h
  have hb' := hsegments b' fun _ _ => rfl
  constructor
  · intro heq
    have htext : spell (s.segments b) = spell (s.segments b') := by
      rw [← canonical_toList, ← canonical_toList, heq]
    rw [hb, hb'] at htext
    simp only [spell_append] at htext
    exact eq_of_spell_toList (List.append_cancel_right (List.append_cancel_left htext))
  · intro heq
    rw [canonical, canonical, hb, hb', heq]

theorem canonical_insert_iff (hn : s.Feeds n) :
    s.canonical (c.insert n v) = s.canonical (c.insert n w) ↔
      v.nonNull?.map Rendering.ofJson = w.nonNull?.map Rendering.ofJson := by
  rw [canonical_eq_iff_rendering hn (c.sameBut_insert n v w), Call.given?_insert_self,
    Call.given?_insert_self]

theorem rendering_eq_iff (v w : Json) :
    v.nonNull?.map Rendering.ofJson = w.nonNull?.map Rendering.ofJson ↔
      (v = .null ∧ w = .null) ∨
        (v ≠ .null ∧ w ≠ .null ∧ Rendering.ofJson v = Rendering.ofJson w) := by
  cases v <;> cases w <;> simp [Json.nonNull?]

/-- Another value of one parameter changes the canonical text exactly if it is rendered otherwise,
or if one of the two is `null` and the other is not. A parameter that is `null` might as well be
absent. -/
theorem canonical_insert_eq_iff (s : Scheme) {n : String} (hn : s.Feeds n) (c : Call) :
    (∀ v w : Json, s.canonical (c.insert n v) = s.canonical (c.insert n w) ↔
      (v = .null ∧ w = .null) ∨
        (v ≠ .null ∧ w ≠ .null ∧ Rendering.ofJson v = Rendering.ofJson w)) ∧
      s.canonical (c.insert n .null) = s.canonical (c.erase n) := by
  refine ⟨fun v w => (canonical_insert_iff hn).trans (rendering_eq_iff v w), ?_⟩
  rw [canonical_eq_iff_rendering hn (c.sameBut_erase n .null), Call.given?_insert_self,
    Call.given?_erase_self]
  rfl

theorem canonical_insert_eq_iff_imitated :
    let s : Scheme := ⟨none, true⟩
    let c := (Call.empty.insert "prompt" (.string "top_k: 1")).insert "top_" (.string "k: 1")
    s.Feeds "top_k" ∧
      s.canonical (c.insert "top_k" (Json.ofInt 1)) =
        s.canonical (c.insert "top_k" (.string "1")) ∧
      s.canonical (c.insert "top_k" (Json.ofInt 1)) ≠ s.canonical (c.insert "top_k" .null) ∧
      s.canonical (c.insert "top_k" .null) = s.canonical (c.erase "top_k") := by
  intro s c
  have hfeeds : s.Feeds "top_k" := .inr ⟨rfl, by decide⟩
  obtain ⟨hvalues, hnull⟩ := canonical_insert_eq_iff s hfeeds c
  refine ⟨hfeeds, ?_, ?_, hnull⟩
  · exact (hvalues _ _).2 (.inr ⟨by decide, by decide, by decide⟩)
  · rw [ne_eq, hvalues]
    decide

end Scheme

end ReplyCache
