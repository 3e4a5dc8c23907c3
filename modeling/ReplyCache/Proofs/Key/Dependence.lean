import ReplyCache.Proofs.Key.Canonical

namespace ReplyCache

namespace Members

variable {α β : Type}

def project (P : String → Bool) (f : α → Option β) (m : List (String × α)) : List (String × β) :=
  (m.filter fun e => P e.1).filterMap fun e => (f e.2).map (e.1, ·)

theorem project_cons (P : String → Bool) (f : α → Option β) (e : String × α)
    (m : List (String × α)) :
    project P f (e :: m) =
      ((if P e.1 then f e.2 else none).map (e.1, ·)).toList ++ project P f m := by
  simp only [project, List.filter_cons]
  cases P e.1 <;> cases hf : f e.2 <;> simp [hf]

theorem name_of_mem_project {P : String → Bool} {f : α → Option β} {m : List (String × α)}
    {d : String × β} (h : d ∈ project P f m) : ∃ e ∈ m, e.1 = d.1 := by
  simp only [project, List.mem_filterMap, List.mem_filter, Option.map_eq_some_iff] at h
  obtain ⟨e, ⟨he, -⟩, b, -, rfl⟩ := h
  exact ⟨e, he, rfl⟩

theorem sorted_project (P : String → Bool) (f : α → Option β) {m : List (String × α)}
    (h : Sorted m) : Sorted (project P f m) := by
  induction m with
  | nil => exact List.Pairwise.nil
  | cons e m ih =>
      obtain ⟨hlt, hm⟩ := List.pairwise_cons.1 h
      rw [project_cons]
      cases if P e.1 then f e.2 else none with
      | none => exact ih hm
      | some b =>
          refine List.pairwise_cons.2 ⟨fun d hd => ?_, ih hm⟩
          obtain ⟨e', he', hname⟩ := name_of_mem_project hd
          exact hname ▸ hlt e' he'

theorem get?_project (P : String → Bool) (f : α → Option β) {m : List (String × α)}
    (h : Sorted m) (name : String) :
    get? name (project P f m) = if P name then (get? name m).bind f else none := by
  induction m with
  | nil => simp [project, get?]
  | cons e m ih =>
      obtain ⟨hlt, hm⟩ := List.pairwise_cons.1 h
      rw [project_cons]
      by_cases he : e.1 = name
      · subst he
        have hrest : get? e.1 (project P f m) = none := by
          rw [ih hm, get?_eq_none_of_lt hlt]
          simp
        cases hP : P e.1 <;> cases hf : f e.2 <;> simp [get?, hf, hrest]
      · cases P e.1 <;> cases f e.2 <;> simp [get?, he, ih hm]

theorem project_congr {P : String → Bool} {f : α → Option β} {m m' : List (String × α)}
    (h : Sorted m) (h' : Sorted m')
    (hg : ∀ name, P name = true → (get? name m).bind f = (get? name m').bind f) :
    project P f m = project P f m' := by
  apply eq_of_get?_eq (sorted_project P f h) (sorted_project P f h')
  intro name
  rw [get?_project P f h, get?_project P f h']
  split
  · rename_i hP
    exact hg name hP
  · rfl

end Members

namespace Scheme

structure Identified (b b' : Call) : Prop where
  resolved : ∀ field ∈ [Call.modelGroupName, Call.sharedGroupsName],
    b.resolve? field = b'.resolve? field
  metadata : ∀ field ∈ [Call.checksumName, Call.fileNameName],
    b.metadataString? field = b'.metadataString? field
  runtime : b.runtimeString? Call.fileNameName = b'.runtimeString? Call.fileNameName

/-- Calls that are alike in all that may feed a key. -/
structure Alike (s : Scheme) (b b' : Call) : Prop extends Identified b b' where
  named : ∀ n ∈ [Param.modelName, Param.fileName], b.get? n = b'.get? n
  given : ∀ n ∈ Param.feeding, n ≠ Param.modelName → n ≠ Param.fileName → b.given? n = b'.given? n
  specific : s.inclusive = true → ∀ n, Param.isSpecific n = true → b.given? n = b'.given? n

variable {s : Scheme} {b b' : Call}

theorem ofFile_congr
    (hmetadata : ∀ field ∈ [Call.checksumName, Call.fileNameName],
      b.metadataString? field = b'.metadataString? field)
    (hruntime : b.runtimeString? Call.fileNameName = b'.runtimeString? Call.fileNameName) :
    Rendering.ofFile b = Rendering.ofFile b' := by
  funext file
  simp only [Rendering.ofFile]
  rw [hmetadata _ (by simp), hmetadata _ (by simp), hruntime]

theorem Identified.ofParam?_eq (h : Identified b b') {n : String}
    (hnamed : n ∈ [Param.modelName, Param.fileName] → b.get? n = b'.get? n)
    (hgiven : n ≠ Param.modelName → n ≠ Param.fileName → b.given? n = b'.given? n) :
    Rendering.ofParam? b n = Rendering.ofParam? b' n := by
  have hmodel : Rendering.ofModel b = Rendering.ofModel b' := by
    funext model
    simp only [Rendering.ofModel, Rendering.sharedGroup?]
    rw [h.resolved _ (by simp), h.resolved _ (by simp)]
  have hfile : Rendering.ofFile b = Rendering.ofFile b' := ofFile_congr h.metadata h.runtime
  simp only [Rendering.ofParam?]
  split
  · rename_i heq
    rw [hnamed (by simp [heq]), hmodel]
  · split
    · rename_i heq
      rw [hnamed (by simp [heq]), hfile]
    · rename_i hne hne'
      rw [hgiven hne hne']

theorem specificSegments_eq (c : Call) :
    specificSegments c = Members.project Param.isSpecific
      (fun v => v.nonNull?.map Rendering.ofJson) c.params.entries := by
  simp only [specificSegments, Members.project]
  congr 1
  funext e
  rw [Option.map_map]
  rfl

theorem specificSegments_congr
    (h : ∀ n, Param.isSpecific n = true → b.given? n = b'.given? n) :
    specificSegments b = specificSegments b' := by
  rw [specificSegments_eq, specificSegments_eq]
  apply Members.project_congr b.params.sorted b'.params.sorted
  intro n hn
  have hgiven : ((b.get? n).bind Json.nonNull?).map Rendering.ofJson =
      ((b'.get? n).bind Json.nonNull?).map Rendering.ofJson := congrArg _ (h n hn)
  rwa [Option.map_bind, Option.map_bind] at hgiven

def rendered (c : Call) (ns : List String) : List (String × String) :=
  ns.filterMap fun n => (Rendering.ofParam? c n).map (n, ·)

theorem rendered_congr {ns : List String}
    (h : ∀ n ∈ ns, Rendering.ofParam? b n = Rendering.ofParam? b' n) :
    rendered b ns = rendered b' ns := by
  apply List.filterMap_congr
  intro n hn
  rw [h n hn]

theorem rendered_around (c : Call) (pre post : List String) (n : String) :
    rendered c (pre ++ n :: post) =
      rendered c pre ++ (((Rendering.ofParam? c n).map (n, ·)).toList ++ rendered c post) := by
  simp only [rendered]
  rw [List.filterMap_append, List.filterMap_cons]
  cases Rendering.ofParam? c n <;> rfl

theorem specific_congr (h : s.inclusive = true → specificSegments b = specificSegments b') :
    (if s.inclusive then specificSegments b else []) =
      if s.inclusive then specificSegments b' else [] := by
  split
  · rename_i hinclusive
    exact h hinclusive
  · rfl

theorem Alike.segments_eq (h : Alike s b b') : s.segments b = s.segments b' := by
  have hfeeding : feedingSegments b = feedingSegments b' :=
    rendered_congr fun n hn => h.toIdentified.ofParam?_eq (h.named n) (h.given n hn)
  simp only [segments]
  rw [hfeeding, specific_congr fun hinclusive => specificSegments_congr (h.specific hinclusive)]

theorem Alike.canonical_eq (h : Alike s b b') : s.canonical b = s.canonical b' := by
  rw [canonical, canonical, h.segments_eq]

/-- Alike calls have one key in one namespace, unless they have different keys of their own. -/
theorem Alike.key_eq (h : Alike s b b') (hown : b.ownKey? = b'.ownKey?)
    (hspace : s.spaceOf b = s.spaceOf b') : s.key b = s.key b' := by
  simp only [key, digest]
  rw [hown, hspace, h.canonical_eq]

theorem qualify_injective (space : Option String) : Function.Injective (qualify space) := by
  intro d e h
  cases space with
  | none => exact congrArg Key.text h
  | some n =>
      have htext := congrArg (fun k => k.text.toList) h
      simp only [qualify, String.toList_append] at htext
      exact String.toList_inj.1 (List.append_cancel_left htext)

theorem digest_eq_of_key_eq (hown : b.ownKey? = none) (hown' : b'.ownKey? = none)
    (hspace : s.spaceOf b = s.spaceOf b') (h : s.key b = s.key b') : s.digest b = s.digest b' := by
  simp only [key] at h
  rw [hown, hown', hspace] at h
  exact qualify_injective _ h

theorem spell_append (es fs : List (String × String)) : spell (es ++ fs) = spell es ++ spell fs :=
  List.flatMap_append

theorem eq_of_spell_toList {n : String} {u v : Option String}
    (h : spell (u.map (n, ·)).toList = spell (v.map (n, ·)).toList) : u = v := by
  cases u with
  | none =>
      cases v with
      | none => rfl
      | some r => exact (spell_ne_nil (n, r) [] h.symm).elim
  | some r =>
      cases v with
      | none => exact (spell_ne_nil (n, r) [] h).elim
      | some r' =>
          simp only [Option.map_some, Option.toList_some] at h
          rw [spell_cons, spell_cons] at h
          have htext : r.toList = r'.toList :=
            List.append_cancel_right (List.append_cancel_left h)
          rw [String.toList_inj.1 htext]

/-- The segment of a feeding parameter stands between those of the other parameters. -/
theorem segments_around {n : String} (hn : n ∈ Param.feeding) :
    ∃ pre post, (∀ m ∈ pre ++ post, m ∈ Param.feeding ∧ m ≠ n) ∧ ∀ (s : Scheme) (c : Call),
      s.segments c = rendered c pre ++ (((Rendering.ofParam? c n).map (n, ·)).toList ++
        (rendered c post ++ if s.inclusive then specificSegments c else [])) := by
  obtain ⟨pre, post, hfeeding⟩ := List.append_of_mem hn
  have hnodup : (pre ++ n :: post).Nodup := hfeeding ▸ Param.nodup_feeding
  obtain ⟨-, hpost, hpre⟩ := List.nodup_append.1 hnodup
  refine ⟨pre, post, fun m hm => ?_, fun s c => ?_⟩
  · rw [hfeeding]
    rcases List.mem_append.1 hm with hm | hm
    · exact ⟨by simp [hm], hpre m hm n (by simp)⟩
    · refine ⟨by simp [hm], ?_⟩
      rintro rfl
      exact (List.nodup_cons.1 hpost).1 hm
  · have hrendered : feedingSegments c = rendered c (pre ++ n :: post) := by
      rw [← hfeeding]
      rfl
    rw [segments, hrendered, rendered_around, List.append_assoc, List.append_assoc]

theorem ofParam?_eq_of_canonical_eq {n : String} (hn : n ∈ Param.feeding)
    (hothers : ∀ m ∈ Param.feeding, m ≠ n → Rendering.ofParam? b m = Rendering.ofParam? b' m)
    (hspecific : s.inclusive = true → specificSegments b = specificSegments b')
    (h : s.canonical b = s.canonical b') : Rendering.ofParam? b n = Rendering.ofParam? b' n := by
  obtain ⟨pre, post, hother, hsegments⟩ := segments_around hn
  have hsame : ∀ m ∈ pre ++ post, Rendering.ofParam? b m = Rendering.ofParam? b' m :=
    fun m hm => hothers m (hother m hm).1 (hother m hm).2
  have hbefore : rendered b pre = rendered b' pre :=
    rendered_congr fun m hm => hsame m (List.mem_append_left _ hm)
  have hafter : rendered b post = rendered b' post :=
    rendered_congr fun m hm => hsame m (List.mem_append_right _ hm)
  have htext : spell (s.segments b) = spell (s.segments b') := by
    rw [← canonical_toList, ← canonical_toList, h]
  rw [hsegments, hsegments, hbefore, hafter, specific_congr hspecific] at htext
  simp only [spell_append] at htext
  exact eq_of_spell_toList (List.append_cancel_right (List.append_cancel_left htext))

end Scheme

end ReplyCache
