import ReplyCache.Proofs.Store.Histories
import ReplyCache.Store.Directory

namespace ReplyCache

namespace Directory

variable {ks : List Key} {n : Nat} {d : Directory} {now : Moment}

/-- An answer that is no I/O fault. -/
def Unhindered {α : Type} (a : Except Fault α) : Prop := ∀ f, a = .error f → f.kind ≠ "io"

theorem unhindered_ok {α : Type} (a : α) : Unhindered (.ok a) := by
  intro f hf
  cases hf

theorem mem_faults_answered {α : Type} {o : Except Fault α × Directory} {f : Fault} :
    f ∈ (answered o).1.faults ↔ o.1 = .error f := by
  obtain ⟨answer, d⟩ := o
  cases answer with
  | ok a => simp [answered, Except.mapError, Answered.faults]
  | error g => simp [answered, Except.mapError, Answered.faults, eq_comm]

theorem snd_answered {α : Type} (o : Except Fault α × Directory) : (answered o).2 = o.2 := rfl

theorem find?_remove (d : Directory) (j k : Key) :
    (d.remove j).find? k = if fileName k = fileName j then none else d.find? k := by
  simp only [find?, remove]
  split
  · rename_i heq
    rw [heq, SortedMap.get?_erase_self]
  · rename_i hne
    exact SortedMap.get?_erase_of_ne d.files hne

theorem isNew_newName (process number : Nat) (k : Key) :
    isNew (newName process number k) = true := by
  rw [isNew, List.isSuffixOf_iff_suffix, newName, String.toList_append]
  exact List.suffix_append _ _

theorem isNew_fileName (k : Key) : isNew (fileName k) = false := by
  rw [isNew, ← Bool.not_eq_true, List.isSuffixOf_iff_suffix, fileName, String.toList_append]
  intro hnew
  have hending := List.suffix_of_suffix_length_le hnew (List.suffix_append _ _) (by decide)
  exact absurd hending (by decide)

theorem ne_newName {name : String} (h : isNew name = false) (process number : Nat) (k : Key) :
    name ≠ newName process number k := by
  rintro rfl
  rw [isNew_newName] at h
  cases h

theorem rename_created (d : Directory) {name target : String} (hne : target ≠ name) (file : File) :
    { d with files := d.files.insert name file }.rename name target =
      match d.files.get? target with
      | some (.folder _) => .error .folder
      | _ => .ok { d with files := (d.files.erase name).insert target file } := by
  rw [rename]
  simp only [SortedMap.get?_insert_self, SortedMap.get?_insert_of_ne _ hne,
    SortedMap.erase_insert_self]
  cases d.files.get? target with
  | none => rfl
  | some found => cases found <;> rfl

/-- It fails before the file is there, or the file stays under its own name; else it has the other
name alone. -/
theorem replace_cases (d : Directory) {name target : String} (hne : target ≠ name)
    (content : String) :
    (∃ o, d.obstacle? name = some o ∧ d.replace name target content = (.error o.fault, d)) ∨
      d.obstacle? name = none ∧
        ((∃ f, d.files.get? target = some (.folder f) ∧ d.replace name target content =
          (.error Obstacle.folder.fault, { d with files := d.files.insert name (.text content) })) ∨
        (∀ f, d.files.get? target ≠ some (.folder f)) ∧ d.replace name target content =
          (.ok (), { d with files := (d.files.erase name).insert target (.text content) })) := by
  cases hobstacle : d.obstacle? name with
  | some o => exact .inl ⟨o, rfl, by simp only [replace, create, hobstacle]⟩
  | none =>
      refine .inr ⟨rfl, ?_⟩
      have hrename := rename_created d hne (.text content)
      cases hfile : d.files.get? target with
      | none =>
          rw [hfile] at hrename
          exact .inr ⟨nofun, by simp only [replace, create, hobstacle, hrename]⟩
      | some found =>
          rw [hfile] at hrename
          cases found with
          | folder f => exact .inl ⟨f, rfl, by simp only [replace, create, hobstacle, hrename]⟩
          | text old => exact .inr ⟨nofun, by simp only [replace, create, hobstacle, hrename]⟩

theorem write_cases (now : Moment) (i : Item) (lifetime : Option Span) (d : Directory) :
    let name := newName d.host.process d.next i.key
    let file := File.text (envelope now i lifetime).text
    let d' := { d with next := d.next + 1 }
    (∃ o, d.obstacle? name = some o ∧ d.write now i lifetime = (.error o.fault, d')) ∨
      d.obstacle? name = none ∧
        ((∃ f, d.find? i.key = some (.folder f) ∧ d.write now i lifetime =
          (.error Obstacle.folder.fault, { d' with files := d.files.insert name file })) ∨
        (∀ f, d.find? i.key ≠ some (.folder f)) ∧ d.write now i lifetime =
          (.ok (), { d' with files := (d.files.erase name).insert (fileName i.key) file })) := by
  intro name file d'
  have hne := ne_newName (isNew_fileName i.key) d.host.process d.next i.key
  have hcases := replace_cases d' hne (envelope now i lifetime).text
  rw [write]
  exact hcases

theorem get?_written (d : Directory) (j : Key) (file : File) (number : Nat) (name : String) :
    ((d.files.erase (newName d.host.process number j)).insert (fileName j) file).get? name =
      if name = fileName j then some file
      else if name = newName d.host.process number j then none
      else d.files.get? name := by
  split
  · rename_i heq
    rw [heq, SortedMap.get?_insert_self]
  · rename_i hne
    rw [SortedMap.get?_insert_of_ne _ hne]
    split
    · rename_i heq
      rw [heq, SortedMap.get?_erase_self]
    · rename_i hold
      exact SortedMap.get?_erase_of_ne _ hold

/-- The files of the keys can be read, and so many new files can be written for them. -/
structure Clear (ks : List Key) (n : Nat) (d : Directory) : Prop where
  holds : d.canHold = true
  isOpen : d.host.isClosed d.place = false
  readable : ∀ k ∈ ks, d.isTooLong (fileName k) = false
  writable : ∀ k ∈ ks, ∀ m, m < n → d.isTooLong (newName d.host.process (d.next + m) k) = false
  folder : ∀ name f, d.files.get? name ≠ some (.folder f)

theorem Clear.less (h : Clear ks (n + 1) d) : Clear ks n d where
  holds := h.holds
  isOpen := h.isOpen
  readable := h.readable
  writable := fun k hk m hm => h.writable k hk m (Nat.lt_succ_of_lt hm)
  folder := h.folder

theorem Clear.obstacle (h : Clear ks (n + 1) d) {k : Key} (hk : k ∈ ks) :
    d.obstacle? (newName d.host.process d.next k) = none := by
  have hshort : d.isTooLong (newName d.host.process d.next k) = false :=
    h.writable k hk 0 n.succ_pos
  simp only [obstacle?, hshort, h.holds, h.isOpen]
  cases hfile : d.files.get? (newName d.host.process d.next k) with
  | none => rfl
  | some file =>
      cases file with
      | folder f => exact (h.folder _ f hfile).elim
      | text content => rfl

theorem Clear.answered {α : Type} {o : Except Fault α × Directory}
    (h : Unhindered o.1 ∧ Clear ks n o.2) :
    (∀ f ∈ (Directory.answered o).1.faults, f.kind ≠ "io") ∧ Clear ks n (Directory.answered o).2 :=
  ⟨fun f hf => h.1 f (mem_faults_answered.1 hf), h.2⟩

theorem Clear.remove (h : Clear ks n d) (k : Key) : Clear ks n (d.remove k) where
  holds := h.holds
  isOpen := h.isOpen
  readable := h.readable
  writable := h.writable
  folder := by
    intro name f
    by_cases hname : name = fileName k
    · rw [hname, show (d.remove k).files.get? (fileName k) = none from
        SortedMap.get?_erase_self _ _]
      exact nofun
    · rw [show (d.remove k).files.get? name = d.files.get? name from
        SortedMap.get?_erase_of_ne _ hname]
      exact h.folder name f

theorem Clear.read (h : Clear ks n d) {k : Key} (hk : k ∈ ks) :
    Unhindered (d.read now k).1 ∧ Clear ks n (d.read now k).2 := by
  rw [Directory.read, h.readable k hk]
  simp only [Bool.false_eq_true, if_false]
  split
  · exact ⟨nofun, h⟩
  · rename_i f hfile
    exact (h.folder (fileName k) f hfile).elim
  · split
    · refine ⟨fun f hf => ?_, h⟩
      obtain rfl := Except.error.inj hf
      decide
    · split
      · exact ⟨nofun, h.remove k⟩
      · exact ⟨nofun, h⟩

theorem Clear.write (h : Clear ks (n + 1) d) {i : Item} (hi : i.key ∈ ks)
    (lifetime : Option Span) :
    Unhindered (d.write now i lifetime).1 ∧ Clear ks n (d.write now i lifetime).2 := by
  rcases write_cases now i lifetime d with ⟨o, ho, -⟩ | ⟨-, ⟨f, hf, -⟩ | ⟨-, hwrite⟩⟩
  · cases ho.symm.trans (h.obstacle hi)
  · exact (h.folder (fileName i.key) f hf).elim
  · rw [hwrite]
    refine ⟨nofun, h.holds, h.isOpen, h.readable, fun k hk m hm => ?_, fun name f => ?_⟩
    · have hshort := h.writable k hk (m + 1) (Nat.succ_lt_succ hm)
      rwa [← Nat.add_assoc, Nat.add_right_comm] at hshort
    · dsimp only
      rw [get?_written]
      split
      · exact nofun
      · split
        · exact nofun
        · exact h.folder name f

theorem Clear.delete (h : Clear ks n d) {gone : List Key} (hgone : ∀ k ∈ gone, k ∈ ks) :
    Unhindered (d.delete gone).1 ∧ Clear ks n (d.delete gone).2 := by
  induction gone generalizing d with
  | nil => exact ⟨nofun, h⟩
  | cons j gone ih =>
      obtain ⟨hj, hgone⟩ := List.forall_mem_cons.1 hgone
      rw [Directory.delete, h.readable j hj]
      simp only [Bool.false_eq_true, if_false]
      split
      · exact ih h hgone
      · rename_i f hfile
        exact (h.folder (fileName j) f hfile).elim
      · have hrest := ih (h.remove j) hgone
        split
        · rename_i n d' heq
          rw [heq] at hrest
          exact ⟨nofun, hrest.2⟩
        · rename_i f d' heq
          rw [heq] at hrest
          exact hrest

theorem Clear.serve (h : Clear ks (n + 1) d) {r : Request} (hkeys : ∀ k ∈ r.keys, k ∈ ks) :
    (∀ f ∈ (store.serve now r d).1.faults, f.kind ≠ "io") ∧
      Clear ks n (store.serve now r d).2 := by
  cases r with
  | read form k context =>
      refine Clear.answered ?_
      exact h.less.read (hkeys k List.mem_cons_self)
  | write form i o =>
      refine Clear.answered ?_
      exact h.write (hkeys i.key List.mem_cons_self) o.lifetime
  | writeAll means is o =>
      refine ⟨fun f hf => ?_, h.less⟩
      obtain rfl := List.mem_singleton.1 hf
      simp [Fault.kind]
  | delete gone =>
      refine Clear.answered ?_
      exact h.less.delete hkeys
  | ping | close => exact ⟨nofun, h.less⟩

theorem Clear.faults {rs : History} (h : Clear ks rs.length d)
    (hkeys : ∀ e ∈ rs, ∀ k ∈ e.2.keys, k ∈ ks) : ∀ f ∈ store.faults rs d, f.kind ≠ "io" := by
  induction rs generalizing d with
  | nil => exact nofun
  | cons e rs ih =>
      obtain ⟨hfirst, hrest⟩ := List.forall_mem_cons.1 hkeys
      obtain ⟨hio, hclear⟩ := h.serve hfirst
      rw [Store.faults]
      exact List.forall_mem_append.2 ⟨hio, ih hclear hrest⟩

end Directory

end ReplyCache
