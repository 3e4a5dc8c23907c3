import ReplyCache.Proofs.Json.Whole
import ReplyCache.Proofs.Span
import ReplyCache.Settings.Json

namespace ReplyCache

namespace Settings

open JsonFormat (format)

/-- Settings that JSON text can tell. The lifetime is written as a double, and the parameters must
be values that are read as they are written. -/
structure Portable (s : Settings) : Prop where
  lifetime : ∀ t ∈ s.lifetime, t.fraction = 0 ∧ t.seconds < 2 ^ 49
  tasks : Tasks.ofList s.tasks = s.tasks
  params : Json.MembersReadBack s.params.entries
  shallow : Json.membersNesting s.params.entries ≤ 125
  flushSize : ∀ n ∈ s.flushSize, n < 0x10000000000000000
  largest : s.largest < 0x10000000000000000

section Fields

theorem engine_tag (e : Engine) : format.engine (Json.string e.tag).toTree = pure e := by
  cases e <;> rfl

theorem mode_tag (m : Mode) : format.mode (Json.string m.tag).toTree = pure m := by
  cases m <;> rfl

theorem task_tag (t : Task) : format.task (Json.string t.tag).toTree = pure t := by
  cases t <;> rfl

theorem mapM_task (ts : List Task) :
    (Json.itemsToTrees (ts.map fun t => .string t.tag)).mapM format.task = pure ts := by
  induction ts with
  | nil => rfl
  | cons t ts ih =>
      rw [List.map_cons, Json.itemsToTrees, List.mapM_cons, task_tag, pure_bind, ih, pure_bind]

theorem option_ofOption {α : Type} {write : α → Json} {read : Json.Tree → Reading α} {o : Option α}
    (hwrite : ∀ a ∈ o, (write a).toTree ≠ .null) (hread : ∀ a ∈ o, read (write a).toTree = pure a) :
    format.option read (Json.ofOption write o).toTree = pure o := by
  cases o with
  | none => rfl
  | some a =>
      have hgiven : format.given? (write a).toTree = pure (some (write a).toTree) := by
        cases htree : (write a).toTree with
        | null => exact (hwrite a rfl htree).elim
        | bool | number | string | array | object | broken => rfl
      rw [Json.ofOption, Format.option, hgiven, pure_bind]
      dsimp only
      rw [hread a rfl, pure_bind]

theorem ofNat_eq {n : Nat} (h : n < 0x10000000000000000) :
    Json.ofNat n = .number (.integer n (by omega)) := by
  have hrange : -0x8000000000000000 ≤ (n : Int) ∧ (n : Int) < 0x10000000000000000 := by omega
  simp [Json.ofNat, Json.ofInt, Number.ofInt?, hrange]

theorem count_ofNat {n : Nat} (h : n < 0x10000000000000000) :
    format.count (Json.ofNat n).toTree = pure n := by
  have hback := Number.readsBack_integer n (by omega)
  rw [Number.ReadsBack] at hback
  have hnatural : format.natural (Json.ofNat n).toTree = pure n := by
    rw [ofNat_eq h, Json.toTree, hback]
    rfl
  rw [Format.count, hnatural, pure_bind, if_pos h]

theorem span_toSeconds {t : Span} (hwhole : t.fraction = 0) (hrange : t.seconds < 2 ^ 49) :
    format.span (Json.ofFloat t.toSeconds).toTree = pure t := by
  have hlead : 2 * Binary.leadingBit = 2 ^ 53 := by norm_num [Binary.leadingBit]
  have hback : (Number.float t.toSeconds t.rounded_toSeconds.finite).ReadsBack := by
    refine Number.readsBack_of_whole (n := t.seconds) t.rounded_toSeconds.toUnsigned ?_ hrange
    have hround := t.rounded_wholeSeconds
    have hseconds := hround.magnitude_natCast (by omega)
    rwa [Span.toSeconds_of_whole hround.toUnsigned hseconds hwhole]
  have hnumber : format.number (Json.ofFloat t.toSeconds).toTree = pure t.toSeconds := by
    rw [Number.ReadsBack] at hback
    rw [Json.ofFloat_of_isFinite t.rounded_toSeconds.finite, Json.toTree, hback]
    rfl
  rw [Format.span, hnumber, pure_bind,
    Span.ofSeconds?_toSeconds_of_whole hwhole (by omega)]
  rfl

theorem values_ofMap {m : SortedMap Json} (hback : Json.MembersReadBack m.entries)
    (hshallow : Json.membersNesting m.entries ≤ 125) :
    format.values (Json.ofMap m).toTree = pure m := by
  have hread : Json.Tree.membersToJson? JsonFormat.deepest (Json.membersToTrees m.entries) =
      some m.entries := (Json.membersToJson?_toTrees m.entries hback _).trans (if_pos hshallow)
  have hmap : SortedMap.ofList m.entries = m := by
    obtain ⟨entries, hsorted⟩ := m
    simp only [SortedMap.ofList, Members.ofList_of_sorted hsorted]
  change Reading.ofOption ((Json.Tree.membersToJson? JsonFormat.deepest
    (Json.membersToTrees m.entries)).map SortedMap.ofList) = _
  rw [hread, Option.map_some, hmap]
  rfl

end Fields

def copy (s d : Settings) : Field → Settings
  | .engine => { d with engine := s.engine }
  | .mode => { d with mode := s.mode }
  | .space => { d with space := s.space }
  | .lifetime => { d with lifetime := s.lifetime }
  | .tasks => { d with tasks := s.tasks }
  | .params => { d with params := s.params }
  | .flushSize => { d with flushSize := s.flushSize }
  | .inclusive => { d with inclusive := s.inclusive }
  | .largest => { d with largest := s.largest }

theorem readField_toMember {s : Settings} (h : s.Portable) (d : Settings) (f : Field) :
    format.readField d (s.toMember f).toTree f = pure (s.copy d f) := by
  cases f with
  | engine => rw [Format.readField, toMember, engine_tag, pure_bind]; rfl
  | mode => rw [Format.readField, toMember, mode_tag, pure_bind]; rfl
  | space =>
      rw [Format.readField, toMember, option_ofOption, pure_bind]
      · rfl
      · intro space _ hnull
        cases hnull
      · exact fun _ _ => rfl
  | lifetime =>
      rw [Format.readField, toMember, option_ofOption, pure_bind]
      · rfl
      · intro t _ hnull
        rw [Json.ofFloat_of_isFinite t.rounded_toSeconds.finite] at hnull
        cases hnull
      · intro t ht
        obtain ⟨hwhole, hrange⟩ := h.lifetime t ht
        exact span_toSeconds hwhole hrange
  | tasks =>
      have hitems : format.items (Json.array (s.tasks.map fun t => .string t.tag)).toTree =
          pure (Json.itemsToTrees (s.tasks.map fun t => .string t.tag)) := rfl
      rw [Format.readField, toMember, hitems, pure_bind, mapM_task, pure_bind, h.tasks]
      rfl
  | params =>
      rw [Format.readField, toMember, values_ofMap h.params h.shallow, pure_bind]
      rfl
  | flushSize =>
      rw [Format.readField, toMember, option_ofOption, pure_bind]
      · rfl
      · intro n hn hnull
        rw [ofNat_eq (h.flushSize n hn)] at hnull
        cases hnull
      · intro n hn
        exact count_ofNat (h.flushSize n hn)
  | inclusive => rfl
  | largest =>
      rw [Format.readField, toMember, count_ofNat h.largest, pure_bind]
      rfl

def field? : Json.Tree × Json.Tree → Option Field
  | (.string (some name), _) => Field.ofName? name
  | _ => none

/-- The members of an object say what the settings are. Each field has its value, under any of its
names, and is written once at most; only fields with their usual value are left out. There may be
other members, and the order does not count. -/
structure Spelled (s : Settings) (members : List (Json.Tree × Json.Tree)) : Prop where
  named : ∀ m ∈ members, ∃ name, m.1 = .string (some name)
  value : ∀ m ∈ members, ∀ f ∈ field? m, m.2 = (s.toMember f).toTree
  once : (members.filterMap field?).Nodup
  usual : ∀ f, f ∉ members.filterMap field? → s.toMember f = toMember {} f

section Copy

variable {s s' d : Settings} {f : Field}

theorem copy_self (s : Settings) (f : Field) : s.copy s f = s := by cases f <;> rfl

theorem copy_copy (s d : Settings) (f : Field) : s.copy (s.copy d f) f = s.copy d f := by
  cases f <;> rfl

theorem copy_comm (s d : Settings) (f g : Field) :
    s.copy (s.copy d f) g = s.copy (s.copy d g) f := by cases f <;> cases g <;> rfl

theorem foldl_copy_all (s d : Settings) : Field.all.foldl s.copy d = s := by
  simp only [Field.all, List.foldl_cons, List.foldl_nil, copy]

theorem foldl_copy_of_eq (h : ∀ f, s.copy d f = d) (fs : List Field) : fs.foldl s.copy d = d := by
  induction fs with
  | nil => rfl
  | cons f fs ih => rw [List.foldl_cons, h f, ih]

theorem copy_foldl (h : s.copy d f = d) (fs : List Field) :
    s.copy (fs.foldl s.copy d) f = fs.foldl s.copy d := by
  induction fs generalizing d with
  | nil => exact h
  | cons g fs ih =>
      refine ih ?_
      rw [copy_comm, h]

theorem copy_foldl_of_mem {fs : List Field} (h : f ∈ fs) (d : Settings) :
    s.copy (fs.foldl s.copy d) f = fs.foldl s.copy d := by
  induction fs generalizing d with
  | nil => cases h
  | cons g fs ih =>
      rcases List.mem_cons.1 h with rfl | h
      · exact copy_foldl (copy_copy s d f) fs
      · exact ih h (s.copy d g)

theorem foldl_copy_eq {fs : List Field} (h : ∀ f, f ∉ fs → s.copy d f = d) :
    fs.foldl s.copy d = s := by
  have hall : ∀ f, s.copy (fs.foldl s.copy d) f = fs.foldl s.copy d := by
    intro f
    by_cases hf : f ∈ fs
    · exact copy_foldl_of_mem hf d
    · exact copy_foldl (h f hf) fs
  rw [← foldl_copy_of_eq hall Field.all, foldl_copy_all]

theorem copy_of_toMember_eq (h : s.Portable) (h' : s'.Portable)
    (heq : s.toMember f = s'.toMember f) : s.copy s' f = s' := by
  have hread := readField_toMember h s' f
  rw [heq, readField_toMember h' s' f, copy_self] at hread
  have hrun := congrFun hread 0
  exact (Prod.mk.inj (Except.ok.inj hrun)).1.symm

end Copy

theorem portable_default : Portable {} where
  lifetime := nofun
  tasks := by decide
  params := trivial
  shallow := by decide
  flushSize := nofun
  largest := by decide

section Read

variable {s : Settings} {members : List (Json.Tree × Json.Tree)}

theorem readEntry_named {m : Json.Tree × Json.Tree} {name : String}
    (hname : m.1 = .string (some name)) (seen : List Field) (d : Settings) :
    format.readEntry (seen, d) m = match field? m with
      | none => pure (seen, d)
      | some f =>
        if seen.contains f then Reading.refuse
        else do return (f :: seen, ← format.readField d m.2 f) := by
  obtain ⟨_, t⟩ := m
  dsimp only at hname
  subst hname
  rfl

theorem foldlM_readEntry (h : s.Portable)
    (hnamed : ∀ m ∈ members, ∃ name, m.1 = .string (some name))
    (hvalue : ∀ m ∈ members, ∀ f ∈ field? m, m.2 = (s.toMember f).toTree)
    (honce : (members.filterMap field?).Nodup) (seen : List Field)
    (hfresh : ∀ f ∈ members.filterMap field?, f ∉ seen) (d : Settings) :
    members.foldlM format.readEntry (seen, d) =
      pure ((members.filterMap field?).reverse ++ seen,
        (members.filterMap field?).foldl s.copy d) := by
  induction members generalizing seen d with
  | nil => rfl
  | cons m members ih =>
      obtain ⟨⟨name, hname⟩, hnamed⟩ := List.forall_mem_cons.1 hnamed
      obtain ⟨hm, hvalue⟩ := List.forall_mem_cons.1 hvalue
      rw [List.foldlM_cons, readEntry_named hname]
      cases hfield : field? m with
      | none =>
          rw [List.filterMap_cons_none hfield] at honce hfresh ⊢
          exact ih hnamed hvalue honce seen hfresh d
      | some f =>
          rw [List.filterMap_cons_some hfield] at honce hfresh ⊢
          obtain ⟨hf, honce⟩ := List.nodup_cons.1 honce
          obtain ⟨hnew, hfresh⟩ := List.forall_mem_cons.1 hfresh
          have hfresh' : ∀ g ∈ members.filterMap field?, g ∉ f :: seen := by
            intro g hg hmem
            rcases List.mem_cons.1 hmem with rfl | hmem
            · exact hf hg
            · exact hfresh g hg hmem
          dsimp only
          rw [if_neg (by simpa using hnew), hm f hfield, readField_toMember h, pure_bind,
            pure_bind, ih hnamed hvalue honce _ hfresh', List.reverse_cons, List.append_assoc]
          rfl

theorem Spelled.foldl_copy (hspelled : s.Spelled members) (h : s.Portable) :
    (members.filterMap field?).foldl s.copy {} = s :=
  foldl_copy_eq fun f hf => copy_of_toMember_eq h portable_default (hspelled.usual f hf)

theorem ofJson_of_object (h : s.Portable) {text : String}
    (htext : Json.Tree.ofChars text.toList = (.object members, true))
    (hspelled : s.Spelled members) : ofJson text = .ok s := by
  have hfold := foldlM_readEntry h hspelled.named hspelled.value hspelled.once []
    (fun _ _ => List.not_mem_nil) {}
  rw [hspelled.foldl_copy h] at hfold
  have hshape : format.shape (.object members) = pure (.members members) := rfl
  have hread : format.readSettings (.object members) = pure s := by
    rw [Format.readSettings, hshape, pure_bind]
    dsimp only
    rw [hfold, pure_bind]
  rw [ofJson, htext]
  dsimp only
  rw [Format.ofTree, hread]
  rfl

end Read

section Text

variable {s : Settings}

theorem Field.mem_all (f : Field) : f ∈ all := by cases f <;> decide

theorem filterMap_field? (ms : List (String × Json)) :
    (Json.membersToTrees ms).filterMap field? = ms.filterMap fun m => Field.ofName? m.1 := by
  rw [Json.membersToTrees_eq_map, List.filterMap_map]
  exact congrArg (ms.filterMap ·) (funext fun ⟨name, v⟩ => rfl)

theorem spelled_membersToTrees {ms : List (String × Json)}
    (hvalue : ∀ m ∈ ms, ∀ f ∈ Field.ofName? m.1, m.2 = s.toMember f)
    (honce : (ms.filterMap fun m => Field.ofName? m.1).Nodup)
    (husual : ∀ f, f ∉ ms.filterMap (fun m => Field.ofName? m.1) → s.toMember f = toMember {} f) :
    s.Spelled (Json.membersToTrees ms) where
  named := by
    intro m hm
    rw [Json.membersToTrees_eq_map] at hm
    obtain ⟨⟨name, v⟩, -, rfl⟩ := List.mem_map.1 hm
    exact ⟨name, rfl⟩
  value := by
    intro m hm f hf
    rw [Json.membersToTrees_eq_map] at hm
    obtain ⟨⟨name, v⟩, he, rfl⟩ := List.mem_map.1 hm
    exact congrArg Json.toTree (hvalue (name, v) he f hf)
  once := by rwa [filterMap_field?]
  usual := by rwa [filterMap_field?]

theorem spelled_toJson (s : Settings) :
    s.Spelled (Json.membersToTrees (Field.all.map fun f => (f.name, s.toMember f))) := by
  have hfields : ((Field.all.map fun f => (f.name, s.toMember f)).filterMap fun m =>
      Field.ofName? m.1) = Field.all := by
    simp [List.filterMap_map, Field.ofName?_name]
  refine spelled_membersToTrees (fun m hm f hf => ?_) ?_ fun f hf => ?_
  · obtain ⟨g, -, rfl⟩ := List.mem_map.1 hm
    rw [Field.ofName?_name] at hf
    rw [Option.some.inj hf]
  · rw [hfields]
    decide
  · rw [hfields] at hf
    exact (hf (Field.mem_all f)).elim

theorem ofJson_text_of_spelled (h : s.Portable) {ms : List (String × Json)}
    (hspelled : s.Spelled (Json.membersToTrees ms)) : ofJson (Json.object ms).text = .ok s := by
  refine ofJson_of_object h ?_ hspelled
  rw [Json.text, String.toList_ofList, Json.ofChars_chars]
  rfl

/-- Settings come back from their own text, from the text of every object that says what they are,
and from whatever other text is read as such an object. -/
theorem ofJson_of_spelled (h : s.Portable) :
    ofJson s.text = .ok s ∧
      (∀ ms, s.Spelled (Json.membersToTrees ms) → ofJson (Json.object ms).text = .ok s) ∧
      ∀ text members, Json.Tree.ofChars text.toList = (.object members, true) →
        s.Spelled members → ofJson text = .ok s :=
  ⟨ofJson_text_of_spelled h s.spelled_toJson, fun _ => ofJson_text_of_spelled h,
    fun _ _ => ofJson_of_object h⟩

def moved : Settings where
  engine := .disk
  mode := .optIn
  space := some "prod"
  lifetime := Span.ofSeconds? 600
  tasks := [.embedding]
  params := SortedMap.ofList [("directory", .string "/tmp/cache")]
  flushSize := some 0

theorem portable_moved : moved.Portable where
  lifetime := by decide +kernel
  tasks := by decide
  params := ⟨trivial, trivial⟩
  shallow := by decide
  flushSize := by decide
  largest := by decide

def movedMembers : List (String × Json) :=
  [("ttl", moved.toMember .lifetime), ("note", .array [.null]), ("mode", moved.toMember .mode),
    ("params", moved.toMember .params), ("namespace", moved.toMember .space),
    ("supported_call_kinds", moved.toMember .tasks), ("flush_size", moved.toMember .flushSize),
    ("type", moved.toMember .engine)]

theorem spelled_movedMembers : moved.Spelled (Json.membersToTrees movedMembers) := by
  refine spelled_membersToTrees (by decide +kernel) (by decide) fun f hf => ?_
  cases f with
  | inclusive | largest => rfl
  | engine | mode | space | lifetime | tasks | params | flushSize => exact (hf (by decide)).elim

def movedText : String :=
  "\x7b\"ttl\":600.0,\"note\":[null],\"mode\":\"default_off\"," ++
    "\"params\":\x7b\"directory\":\"/tmp/cache\"\x7d,\"namespace\":\"prod\"," ++
    "\"supported_call_kinds\":[\"embedding\"],\"flush_size\":0,\"type\":\"disk\"\x7d"

theorem ofJson_of_spelled_moved :
    ofJson moved.text = .ok moved ∧ ofJson movedText = .ok moved := by
  obtain ⟨hown, hobject, -⟩ := ofJson_of_spelled portable_moved
  refine ⟨hown, ?_⟩
  rw [← hobject movedMembers spelled_movedMembers]
  exact congrArg ofJson (by decide +kernel)

end Text

end Settings

end ReplyCache
