import Mathlib.Data.List.Nodup
import ReplyCache.Json.Tree

namespace ReplyCache

namespace SortedMap

variable {α : Type}

theorem insert_comm (m : SortedMap α) {j k : String} (h : j ≠ k) (x y : α) :
    (m.insert j x).insert k y = (m.insert k y).insert j x := by
  apply ext_get?
  intro name
  by_cases hk : name = k
  · subst hk
    rw [get?_insert_self, get?_insert_of_ne _ (Ne.symm h), get?_insert_self]
  · rw [get?_insert_of_ne _ hk]
    by_cases hj : name = j
    · subst hj
      rw [get?_insert_self, get?_insert_self]
    · rw [get?_insert_of_ne _ hj, get?_insert_of_ne _ hj, get?_insert_of_ne _ hk]

def insertAll (m : SortedMap α) (es : List (String × α)) : SortedMap α :=
  es.foldl (fun m e => m.insert e.1 e.2) m

theorem insertAll_perm (m : SortedMap α) {es fs : List (String × α)} (h : es.Perm fs)
    (hnames : (es.map (·.1)).Nodup) : m.insertAll es = m.insertAll fs := by
  apply h.foldl_eq'
  intro d hd e he m
  by_cases hname : d.1 = e.1
  · rw [List.inj_on_of_nodup_map hnames hd he hname]
  · exact insert_comm m hname d.2 e.2

theorem ofList_eq_insertAll (es : List (String × α)) : ofList es = empty.insertAll es := by
  have hentries : (empty.insertAll es).entries = Members.ofList es :=
    (List.foldl_hom entries fun _ _ => rfl).symm
  cases hm : empty.insertAll es with
  | mk entries sorted =>
      rw [hm] at hentries
      subst hentries
      rfl

end SortedMap

theorem Members.ofList_perm {α : Type} {es fs : List (String × α)} (h : es.Perm fs)
    (hnames : (es.map (·.1)).Nodup) : Members.ofList es = Members.ofList fs := by
  have hmap : SortedMap.ofList es = SortedMap.ofList fs := by
    rw [SortedMap.ofList_eq_insertAll, SortedMap.ofList_eq_insertAll,
      SortedMap.insertAll_perm _ h hnames]
  exact congrArg SortedMap.entries hmap

namespace Json

namespace Tree

/-- Trees that differ only in the order of the members of objects, at any depth. -/
inductive Reordered : Tree → Tree → Prop
  | refl (t : Tree) : Reordered t t
  | trans {t u v : Tree} : Reordered t u → Reordered u v → Reordered t v
  | members {ms ns : List (Tree × Tree)} : ms.Perm ns → Reordered (object ms) (object ns)
  | within (ms : List (Tree × Tree)) (name : Tree) {t u : Tree} (ns : List (Tree × Tree)) :
    Reordered t u → Reordered (object (ms ++ (name, t) :: ns)) (object (ms ++ (name, u) :: ns))
  | item (xs : List Tree) {t u : Tree} (ys : List Tree) :
    Reordered t u → Reordered (array (xs ++ t :: ys)) (array (xs ++ u :: ys))

mutual

def Distinct : Tree → Prop
  | null | bool _ | number _ | string _ | broken => True
  | array items => ItemsDistinct items
  | object members => (members.map (·.1)).Nodup ∧ MembersDistinct members
termination_by structural t => t

def ItemsDistinct : List Tree → Prop
  | [] => True
  | x :: xs => Distinct x ∧ ItemsDistinct xs
termination_by structural xs => xs

def MembersDistinct : List (Tree × Tree) → Prop
  | [] => True
  | m :: ms => MemberDistinct m ∧ MembersDistinct ms
termination_by structural ms => ms

def MemberDistinct : Tree × Tree → Prop
  | (_, v) => Distinct v
termination_by structural m => m

end

theorem itemsDistinct_iff {xs : List Tree} : ItemsDistinct xs ↔ ∀ x ∈ xs, Distinct x := by
  induction xs with
  | nil => simp [ItemsDistinct]
  | cons x xs ih => rw [ItemsDistinct, ih, List.forall_mem_cons]

theorem membersDistinct_iff {ms : List (Tree × Tree)} :
    MembersDistinct ms ↔ ∀ m ∈ ms, Distinct m.2 := by
  induction ms with
  | nil => simp [MembersDistinct]
  | cons m ms ih =>
      obtain ⟨name, v⟩ := m
      rw [MembersDistinct, ih, List.forall_mem_cons]
      rfl

theorem Reordered.distinct {t u : Tree} (h : Reordered t u) (ht : t.Distinct) : u.Distinct := by
  induction h with
  | refl t => exact ht
  | trans _ _ ih ih' => exact ih' (ih ht)
  | members hperm =>
      obtain ⟨hnames, hvalues⟩ := ht
      refine ⟨(hperm.map _).nodup_iff.1 hnames, membersDistinct_iff.2 fun m hm => ?_⟩
      exact membersDistinct_iff.1 hvalues m (hperm.mem_iff.2 hm)
  | within ms name ns _ ih =>
      obtain ⟨hnames, hvalues⟩ := ht
      rw [membersDistinct_iff, List.forall_mem_append, List.forall_mem_cons] at hvalues
      refine ⟨by simpa using hnames, ?_⟩
      rw [membersDistinct_iff, List.forall_mem_append, List.forall_mem_cons]
      exact ⟨hvalues.1, ih hvalues.2.1, hvalues.2.2⟩
  | item xs ys _ ih =>
      have hitems : ItemsDistinct _ := ht
      rw [itemsDistinct_iff, List.forall_mem_append, List.forall_mem_cons] at hitems
      refine itemsDistinct_iff.2 ?_
      rw [List.forall_mem_append, List.forall_mem_cons]
      exact ⟨hitems.1, ih hitems.2.1, hitems.2.2⟩

theorem itemsToJson?_congr {depth : Nat} {t u : Tree} (h : toJson? depth t = toJson? depth u)
    (xs ys : List Tree) :
    itemsToJson? depth (xs ++ t :: ys) = itemsToJson? depth (xs ++ u :: ys) := by
  induction xs with
  | nil => simp only [List.nil_append, itemsToJson?, h]
  | cons x xs ih => simp only [List.cons_append, itemsToJson?, ih]

theorem membersToJson?_congr {depth : Nat} {t u : Tree} (h : toJson? depth t = toJson? depth u)
    (ms : List (Tree × Tree)) (name : Tree) (ns : List (Tree × Tree)) :
    membersToJson? depth (ms ++ (name, t) :: ns) =
      membersToJson? depth (ms ++ (name, u) :: ns) := by
  have hmember : memberToJson? depth (name, t) = memberToJson? depth (name, u) := by
    unfold memberToJson?
    split <;> simp_all
  induction ms with
  | nil => simp only [List.nil_append, membersToJson?, hmember]
  | cons m ms ih => simp only [List.cons_append, membersToJson?, ih]

theorem membersToJson?_cons_eq_some {depth : Nat} {m : Tree × Tree} {ms : List (Tree × Tree)}
    {es : List (String × Json)} : membersToJson? depth (m :: ms) = some es ↔
      ∃ e es', memberToJson? depth m = some e ∧ membersToJson? depth ms = some es' ∧
        es = e :: es' := by
  simp only [membersToJson?, Option.bind_eq_bind, Option.bind_eq_some_iff, Option.some_inj]
  constructor
  · rintro ⟨e, he, es', hes, rfl⟩
    exact ⟨e, es', he, hes, rfl⟩
  · rintro ⟨e, es', he, hes, rfl⟩
    exact ⟨e, he, es', hes, rfl⟩

theorem membersToJson?_perm {depth : Nat} {ms ns : List (Tree × Tree)} (h : ms.Perm ns)
    {es : List (String × Json)} (hes : membersToJson? depth ms = some es) :
    ∃ fs, membersToJson? depth ns = some fs ∧ es.Perm fs := by
  induction h generalizing es with
  | nil => exact ⟨es, hes, .refl es⟩
  | cons m _ ih =>
      obtain ⟨e, es', he, hes', rfl⟩ := membersToJson?_cons_eq_some.1 hes
      obtain ⟨fs, hfs, hperm⟩ := ih hes'
      exact ⟨e :: fs, membersToJson?_cons_eq_some.2 ⟨e, fs, he, hfs, rfl⟩, hperm.cons e⟩
  | swap m n ms =>
      obtain ⟨e, es', he, hes', rfl⟩ := membersToJson?_cons_eq_some.1 hes
      obtain ⟨f, fs, hf, hfs, rfl⟩ := membersToJson?_cons_eq_some.1 hes'
      refine ⟨f :: e :: fs, membersToJson?_cons_eq_some.2 ⟨f, e :: fs, hf, ?_, rfl⟩, .swap f e fs⟩
      exact membersToJson?_cons_eq_some.2 ⟨e, fs, he, hfs, rfl⟩
  | trans _ _ ih ih' =>
      obtain ⟨fs, hfs, hperm⟩ := ih hes
      obtain ⟨gs, hgs, hperm'⟩ := ih' hfs
      exact ⟨gs, hgs, hperm.trans hperm'⟩

theorem names_of_membersToJson? {depth : Nat} {ms : List (Tree × Tree)}
    {es : List (String × Json)} (h : membersToJson? depth ms = some es) :
    ms.map (·.1) = es.map fun e => string (some e.1) := by
  induction ms generalizing es with
  | nil =>
      obtain rfl := Option.some.inj h
      rfl
  | cons m ms ih =>
      obtain ⟨e, es', he, hes', rfl⟩ := membersToJson?_cons_eq_some.1 h
      have hname : m.1 = string (some e.1) := by
        unfold memberToJson? at he
        split at he
        · obtain ⟨v, -, rfl⟩ := Option.map_eq_some_iff.1 he
          rfl
        · cases he
      rw [List.map_cons, List.map_cons, ih hes', hname]

/-- The order of its members does not matter for the value of a text. -/
theorem toJson?_eq_of_reordered {t u : Tree} (h : Reordered t u) (ht : t.Distinct) (depth : Nat) :
    toJson? depth t = toJson? depth u := by
  induction h generalizing depth with
  | refl t => rfl
  | trans h _ ih ih' => exact (ih ht depth).trans (ih' (h.distinct ht) depth)
  | @members ms ns hperm =>
      cases depth with
      | zero => rfl
      | succ depth =>
          simp only [toJson?]
          cases hes : membersToJson? depth ms with
          | some es =>
              obtain ⟨fs, hfs, hperm'⟩ := membersToJson?_perm hperm hes
              have hnames : (es.map (·.1)).Nodup := by
                have hdistinct := ht.1
                rw [names_of_membersToJson? hes] at hdistinct
                exact .of_map (fun n => string (some n)) (by rwa [List.map_map])
              rw [hfs, Option.map_some, Option.map_some, Json.ofMembers, Json.ofMembers,
                Members.ofList_perm hperm' hnames]
          | none =>
              cases hfs : membersToJson? depth ns with
              | none => rfl
              | some fs =>
                  obtain ⟨es, hsome, -⟩ := membersToJson?_perm hperm.symm hfs
                  rw [hes] at hsome
                  cases hsome
  | within ms name ns _ ih =>
      cases depth with
      | zero => rfl
      | succ depth =>
          have hvalues := membersDistinct_iff.1 ht.2
          have hvalue := ih (hvalues (name, _) (by simp)) depth
          simp only [toJson?]
          rw [membersToJson?_congr hvalue]
  | item xs ys _ ih =>
      cases depth with
      | zero => rfl
      | succ depth =>
          have hitems := itemsDistinct_iff.1 ht
          have hitem := ih (hitems _ (by simp)) depth
          simp only [toJson?]
          rw [itemsToJson?_congr hitem]

end Tree

/-- Two texts that are read to their end and differ only in the order of the members of objects. No
object has two members of one name. -/
def Reordered (s s' : String) : Prop :=
  ∃ t t', Tree.ofChars s.toList = (t, true) ∧ Tree.ofChars s'.toList = (t', true) ∧ t.Distinct ∧
    t.Reordered t'

theorem ofText?_eq_of_reordered {s s' : String} (h : Reordered s s') : ofText? s = ofText? s' := by
  obtain ⟨t, t', hs, hs', hdistinct, hreordered⟩ := h
  rw [ofText?, ofText?, hs, hs']
  exact Tree.toJson?_eq_of_reordered hreordered hdistinct deepest

end Json

end ReplyCache
