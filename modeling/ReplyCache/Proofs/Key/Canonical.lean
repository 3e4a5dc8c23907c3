import ReplyCache.Key.Basic
import ReplyCache.Proofs.Json.Text

namespace ReplyCache

namespace Scheme

def mark (name : String) : List Char := name.toList ++ [':', ' ']

def spell (es : List (String × String)) : List Char :=
  es.flatMap fun e => mark e.1 ++ e.2.toList

def lead : List (String × String) → List Char
  | [] => []
  | e :: _ => mark e.1

def Agree (cs ds : List Char) : Prop := cs <+: ds ∨ ds <+: cs

/-- Segments that part at a feeding parameter though their texts may go on alike. -/
inductive Blurred : List (String × String) → List (String × String) → Prop
  /-- A rendering goes on as the other call's next segment starts. -/
  | within {n r x m v : String} {es fs : List (String × String)} (hn : n ∈ Param.feeding)
      (hx : x ≠ "") (h : Agree (mark m) (x.toList ++ lead fs)) :
      Blurred ((n, r) :: (m, v) :: es) ((n, r ++ x) :: fs)
  /-- A parameter of a provider has a name that starts as a segment does. -/
  | named {m v y w : String} {es fs : List (String × String)} (hm : m ∈ Param.feeding) :
      Blurred ((m, v) :: es) ((m ++ ": " ++ y, w) :: fs)
  | later (e : String × String) {es fs : List (String × String)} (h : Blurred es fs) :
      Blurred (e :: es) (e :: fs)

/-- A string, and the value of another kind that has it as its JSON text. -/
def Retyped (u v : Option Json) : Prop :=
  ∃ w : Json, w.string? = none ∧ u = some (.string w.text) ∧ v = some w

def SameText (u v : Option Json) : Prop := Retyped u v ∨ Retyped v u

theorem canonical_toList (s : Scheme) (c : Call) :
    (s.canonical c).toList = spell (s.segments c) := by
  simp only [canonical, spell]
  rw [String.toList_join, List.flatMap_map]
  congr 1
  funext e
  simp [segmentText, mark]

theorem spell_cons (e : String × String) (es : List (String × String)) :
    spell (e :: es) = mark e.1 ++ (e.2.toList ++ spell es) := by
  rw [spell, List.flatMap_cons, List.append_assoc]
  rfl

theorem spell_ne_nil (e : String × String) (es : List (String × String)) :
    spell (e :: es) ≠ [] := by
  rw [spell_cons, mark]
  simp

theorem lead_prefix_spell (es : List (String × String)) : lead es <+: spell es := by
  cases es with
  | nil => exact List.prefix_refl _
  | cons e es =>
      rw [spell_cons]
      exact List.prefix_append _ _

theorem agree_of_prefix {cs ds text : List Char} (hc : cs <+: text) (hd : ds <+: text) :
    Agree cs ds := List.prefix_or_prefix_of_prefix hc hd

theorem colon_notMem_feeding : ∀ n ∈ Param.feeding, ':' ∉ n.toList := by
  decide

theorem eq_or_extends_of_mark_append {m m' : String} (hm : ':' ∉ m.toList) {cs ds : List Char}
    (h : mark m ++ cs = mark m' ++ ds) : m = m' ∨ ∃ y, m' = m ++ ": " ++ y := by
  simp only [mark, List.append_assoc, List.cons_append, List.nil_append] at h
  rcases List.append_eq_append_iff.1 h with ⟨x, hx, hrest⟩ | ⟨x, hx, hrest⟩
  · cases x with
    | nil =>
        rw [List.append_nil] at hx
        exact .inl (String.toList_inj.1 hx).symm
    | cons c x =>
        cases x with
        | nil => simp at hrest
        | cons d y =>
            obtain ⟨rfl, rfl, -⟩ : ':' = c ∧ ' ' = d ∧ _ := by simpa using hrest
            exact .inr ⟨String.ofList y, String.toList_inj.1 (by simp [hx])⟩
  · cases x with
    | nil =>
        rw [List.append_nil] at hx
        exact .inl (String.toList_inj.1 hx)
    | cons c x =>
        obtain rfl := (List.cons.inj hrest).1
        exact (hm (by rw [hx]; simp)).elim

theorem blurred_of_spell_eq {n r r' : String} {es fs : List (String × String)}
    (hn : n ∈ Param.feeding) {x : List Char} (hx : x ≠ []) (hr : r'.toList = r.toList ++ x)
    (h : spell es = x ++ spell fs) : Blurred ((n, r) :: es) ((n, r') :: fs) := by
  cases es with
  | nil =>
      have hnil := List.append_eq_nil_iff.1 h.symm
      exact (hx hnil.1).elim
  | cons e es =>
      obtain rfl : r' = r ++ String.ofList x := String.toList_inj.1 (by simpa using hr)
      refine .within hn (fun h0 => hx (by simpa using h0)) ?_
      rw [String.toList_ofList]
      apply agree_of_prefix (lead_prefix_spell (e :: es))
      rw [h]
      exact (List.prefix_append_right_inj x).2 (lead_prefix_spell fs)

theorem eq_of_rendering_eq {n r r' : String} {es fs : List (String × String)}
    (hn : n ∈ Param.feeding) (h : r.toList ++ spell es = r'.toList ++ spell fs)
    (hclear : ¬ Blurred ((n, r) :: es) ((n, r') :: fs))
    (hclear' : ¬ Blurred ((n, r') :: fs) ((n, r) :: es)) : r = r' ∧ spell es = spell fs := by
  rcases List.append_eq_append_iff.1 h with ⟨x, hx, hrest⟩ | ⟨x, hx, hrest⟩
  · by_cases hnil : x = []
    · rw [hnil, List.append_nil] at hx
      rw [hnil, List.nil_append] at hrest
      exact ⟨(String.toList_inj.1 hx).symm, hrest⟩
    · exact (hclear (blurred_of_spell_eq hn hnil hx hrest)).elim
  · by_cases hnil : x = []
    · rw [hnil, List.append_nil] at hx
      rw [hnil, List.nil_append] at hrest
      exact ⟨String.toList_inj.1 hx, hrest.symm⟩
    · exact (hclear' (blurred_of_spell_eq hn hnil hx hrest)).elim

/-- The feeding parameters are in front, the others behind them. -/
structure Parted (es fs : List (String × String)) : Prop where
  feeding : ∀ e ∈ es, e.1 ∈ Param.feeding
  specific : ∀ e ∈ fs, e.1 ∉ Param.feeding

theorem Parted.tail {e : String × String} {es fs : List (String × String)}
    (h : Parted (e :: es) fs) : Parted es fs :=
  ⟨fun d hd => h.feeding d (List.mem_cons_of_mem _ hd), h.specific⟩

theorem blurred_of_ended {e : String × String} {es fs gs : List (String × String)}
    (he : e.1 ∈ Param.feeding) (hgs : ∀ g ∈ gs, g.1 ∉ Param.feeding)
    (h : spell (e :: es ++ fs) = spell gs) : Blurred (e :: es ++ fs) gs := by
  cases gs with
  | nil => exact (spell_ne_nil _ _ h).elim
  | cons g gs =>
      rw [List.cons_append, spell_cons, spell_cons] at h
      obtain ⟨n, w⟩ := g
      rcases eq_or_extends_of_mark_append (colon_notMem_feeding _ he) h with hsame | ⟨y, rfl⟩
      · exact (hgs _ List.mem_cons_self (hsame ▸ he)).elim
      · exact .named he

theorem eq_of_spell_eq {es es' fs fs' : List (String × String)} (hp : Parted es fs)
    (hp' : Parted es' fs') (h : spell (es ++ fs) = spell (es' ++ fs'))
    (hclear : ¬ Blurred (es ++ fs) (es' ++ fs')) (hclear' : ¬ Blurred (es' ++ fs') (es ++ fs)) :
    es = es' := by
  induction es generalizing es' with
  | nil =>
      cases es' with
      | nil => rfl
      | cons e' es' =>
          have he := hp'.feeding e' List.mem_cons_self
          exact (hclear' (blurred_of_ended he hp.specific h.symm)).elim
  | cons e es ih =>
      have he := hp.feeding e List.mem_cons_self
      cases es' with
      | nil => exact (hclear (blurred_of_ended he hp'.specific h)).elim
      | cons e' es' =>
          have he' := hp'.feeding e' List.mem_cons_self
          obtain ⟨n, r⟩ := e
          obtain ⟨n', r'⟩ := e'
          simp only [List.cons_append] at h hclear hclear'
          rw [spell_cons, spell_cons] at h
          obtain rfl : n = n' := by
            rcases eq_or_extends_of_mark_append (colon_notMem_feeding _ he) h with hsame | ⟨y, rfl⟩
            · exact hsame
            · exact absurd he' (fun hmem => colon_notMem_feeding _ hmem (by simp))
          obtain ⟨rfl, hrest⟩ := eq_of_rendering_eq he (List.append_cancel_left h) hclear hclear'
          rw [ih hp.tail hp'.tail hrest (fun hb => hclear (.later _ hb))
            (fun hb => hclear' (.later _ hb))]

theorem Blurred.feeding_mem {es fs : List (String × String)} (h : Blurred es fs) :
    ∃ e ∈ es, e.1 ∈ Param.feeding := by
  induction h with
  | within hn hx h => exact ⟨_, List.mem_cons_self, hn⟩
  | named hm => exact ⟨_, List.mem_cons_self, hm⟩
  | later e h ih =>
      obtain ⟨d, hd, hfeeding⟩ := ih
      exact ⟨d, List.mem_cons_of_mem _ hd, hfeeding⟩

theorem blurred_of_cons_cons {e : String × String} {es fs : List (String × String)}
    (h : Blurred (e :: es) (e :: fs)) : Blurred es fs := by
  generalize hes : e :: es = l at h
  generalize hfs : e :: fs = l' at h
  cases h with
  | within hn hx h =>
      obtain ⟨rfl, -⟩ := List.cons.inj hes
      have hsame := (Prod.mk.inj (List.cons.inj hfs).1).2
      exact (hx (by simpa using congrArg String.toList hsame)).elim
  | named hm =>
      obtain ⟨rfl, -⟩ := List.cons.inj hes
      have hname := congrArg String.length (Prod.mk.inj (List.cons.inj hfs).1).1
      have hcolon : ": ".length = 2 := rfl
      rw [String.length_append, String.length_append, hcolon] at hname
      omega
  | later d h =>
      obtain ⟨-, rfl⟩ := List.cons.inj hes
      obtain ⟨-, rfl⟩ := List.cons.inj hfs
      exact h

theorem not_blurred_append {es fs fs' : List (String × String)}
    (hfs : ∀ e ∈ fs, e.1 ∉ Param.feeding) : ¬ Blurred (es ++ fs) (es ++ fs') := by
  induction es with
  | nil =>
      intro h
      obtain ⟨e, he, hfeeding⟩ := h.feeding_mem
      exact hfs e he hfeeding
  | cons e es ih => exact fun h => ih (blurred_of_cons_cons h)

theorem name_mem_of_mem_filterMap {f : String → Option String} {ns : List String}
    {e : String × String} (h : e ∈ ns.filterMap fun n => (f n).map (n, ·)) : e.1 ∈ ns := by
  simp only [List.mem_filterMap, Option.map_eq_some_iff] at h
  obtain ⟨n, hn, r, -, rfl⟩ := h
  exact hn

theorem eq_of_filterMap_eq {f g : String → Option String} {ns : List String} (hnodup : ns.Nodup)
    (h : (ns.filterMap fun n => (f n).map (n, ·)) = ns.filterMap fun n => (g n).map (n, ·)) :
    ∀ n ∈ ns, f n = g n := by
  induction ns with
  | nil => simp
  | cons m ns ih =>
      obtain ⟨hm, hns⟩ := List.nodup_cons.1 hnodup
      have hlater : ∀ {k : String → Option String} {r : String} {es : List (String × String)},
          (ns.filterMap fun n => (k n).map (n, ·)) ≠ (m, r) :: es := by
        intro k r es heq
        exact hm (name_mem_of_mem_filterMap (f := k) (e := (m, r)) (heq ▸ List.mem_cons_self))
      rw [List.filterMap_cons, List.filterMap_cons] at h
      cases hf : f m with
      | none =>
          cases hg : g m with
          | none =>
              rw [hf, hg] at h
              exact List.forall_mem_cons.2 ⟨hf.trans hg.symm, ih hns h⟩
          | some r =>
              rw [hf, hg] at h
              exact (hlater h).elim
      | some r =>
          cases hg : g m with
          | none =>
              rw [hf, hg] at h
              exact (hlater h.symm).elim
          | some r' =>
              rw [hf, hg] at h
              obtain ⟨hhead, htail⟩ := List.cons.inj h
              obtain rfl := (Prod.mk.inj hhead).2
              exact List.forall_mem_cons.2 ⟨hf.trans hg.symm, ih hns htail⟩

theorem parted_segments (s : Scheme) (c : Call) :
    Parted (feedingSegments c) (if s.inclusive then specificSegments c else []) := by
  constructor
  · intro e he
    exact name_mem_of_mem_filterMap he
  · intro e he
    split at he
    · simp only [specificSegments, List.mem_filterMap, List.mem_filter,
        Option.map_eq_some_iff] at he
      obtain ⟨d, ⟨-, hspecific⟩, v, -, rfl⟩ := he
      simp only [Param.isSpecific, Bool.and_eq_true, Bool.not_eq_true'] at hspecific
      simpa using hspecific.1
    · cases he

end Scheme

namespace Rendering

theorem eq_string_of_string? {v : Json} {t : String} (h : v.string? = some t) : v = .string t := by
  cases v with
  | string s => rw [Option.some.inj h]
  | null | bool b | number n | array items | object members => cases h

theorem ofJson_of_not_string {v : Json} (h : v.string? = none) : ofJson v = v.text := by
  cases v with
  | string s => cases h
  | null | bool b | number n | array items | object members => rfl

theorem eq_or_sameText {u v : Option Json} (h : u.map ofJson = v.map ofJson) :
    u = v ∨ Scheme.SameText u v := by
  cases u with
  | none =>
      cases v with
      | none => exact .inl rfl
      | some w => simp at h
  | some u =>
      cases v with
      | none => simp at h
      | some v =>
          rw [Option.map_some, Option.map_some, Option.some_inj] at h
          cases hu : u.string? with
          | some t =>
              obtain rfl := eq_string_of_string? hu
              cases hv : v.string? with
              | some t' =>
                  obtain rfl := eq_string_of_string? hv
                  obtain rfl : t = t' := h
                  exact .inl rfl
              | none =>
                  rw [ofJson_of_not_string hv] at h
                  obtain rfl : t = v.text := h
                  exact .inr (.inl ⟨v, hv, rfl, rfl⟩)
          | none =>
              rw [ofJson_of_not_string hu] at h
              cases hv : v.string? with
              | some t =>
                  obtain rfl := eq_string_of_string? hv
                  obtain rfl : u.text = t := h
                  exact .inr (.inr ⟨u, hu, rfl, rfl⟩)
              | none =>
                  rw [ofJson_of_not_string hv] at h
                  exact .inl (congrArg some (Json.text_injective h))

end Rendering

namespace Scheme

/-- Calls of one canonical text have the same feeding segments exactly if their segments do not
blur. -/
theorem feedingSegments_eq_iff {s : Scheme} {a b : Call} (h : s.canonical a = s.canonical b) :
    feedingSegments a = feedingSegments b ↔
      ¬ Blurred (s.segments a) (s.segments b) ∧ ¬ Blurred (s.segments b) (s.segments a) := by
  have ha := parted_segments s a
  have hb := parted_segments s b
  constructor
  · intro heq
    simp only [segments]
    rw [heq]
    exact ⟨not_blurred_append ha.specific, not_blurred_append hb.specific⟩
  · rintro ⟨hab, hba⟩
    have htext : spell (s.segments a) = spell (s.segments b) := by
      rw [← canonical_toList, ← canonical_toList, h]
    exact eq_of_spell_eq ha hb htext hab hba

/-- Calls of one canonical text give the same values, except where the segments blur or a string is
the JSON text of the other call's value. -/
theorem given_of_canonical_eq {s : Scheme} {a b : Call} (h : s.canonical a = s.canonical b)
    (hab : ¬ Blurred (s.segments a) (s.segments b))
    (hba : ¬ Blurred (s.segments b) (s.segments a)) :
    ∀ n ∈ Param.feeding, n ≠ Param.modelName → n ≠ Param.fileName →
      a.given? n = b.given? n ∨ SameText (a.given? n) (b.given? n) := by
  intro n hn hmodel hfile
  have hsegments := (feedingSegments_eq_iff h).2 ⟨hab, hba⟩
  have hparam := eq_of_filterMap_eq Param.nodup_feeding hsegments n hn
  simp only [Rendering.ofParam?, hmodel, hfile, if_false] at hparam
  exact Rendering.eq_or_sameText hparam

def promptly (prompt seed timeout : Json) : Call :=
  ((Call.empty.insert "prompt" prompt).insert "seed" seed).insert "timeout" timeout

theorem given_of_canonical_eq_promptly :
    let a := promptly (.string "seed: 2") (Json.ofInt 1) (Json.ofInt 5)
    let b := promptly (.string "seed: 2") (Json.ofInt 1) (Json.ofInt 9)
    a ≠ b ∧ Scheme.canonical {} a = Scheme.canonical {} b ∧
      ∀ n ∈ Param.feeding, n ≠ Param.modelName → n ≠ Param.fileName →
        a.given? n = b.given? n ∨ SameText (a.given? n) (b.given? n) := by
  intro a b
  have htext : Scheme.canonical {} a = Scheme.canonical {} b := by decide
  have hsegments : feedingSegments a = feedingSegments b := by decide
  obtain ⟨hab, hba⟩ := (feedingSegments_eq_iff htext).1 hsegments
  exact ⟨by decide, htext, given_of_canonical_eq htext hab hba⟩

example :
    let topped := (Call.empty.insert "prompt" (.string "x")).insert "top_n" (Json.ofInt 5)
    let plain := (Call.empty.insert "prompt" (.string "xtop_")).insert "n" (Json.ofInt 5)
    Scheme.canonical {} topped = Scheme.canonical {} plain := by
  decide

def seeded (v : Json) : Call := Call.empty.insert "seed" v

/-- A number and the string of its digits have one canonical text. -/
theorem not_given_of_canonical_eq :
    ¬ ∀ (s : Scheme) (a b : Call), a.ownKey? = none → b.ownKey? = none →
      s.canonical a = s.canonical b →
      ∀ n ∈ Param.feeding, n ≠ Param.modelName → n ≠ Param.fileName → a.given? n = b.given? n := by
  intro hall
  have h := hall {} (seeded (Json.ofInt 1)) (seeded (.string "1")) (by decide) (by decide)
    (by decide) "seed" (by decide) (by decide) (by decide)
  revert h
  decide

end Scheme

end ReplyCache
