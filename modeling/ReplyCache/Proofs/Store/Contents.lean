import Mathlib.Data.Finset.Card
import ReplyCache.Proofs.Store.Filing

namespace ReplyCache

namespace Directory

/-- Whether a read finds the lifetime of a write over: its end is read from the file. -/
def isFoundOver (now : Moment) (w : Moment × Pending) : Bool :=
  (w.2.lifetime.bind fun s => Envelope.reread? (w.1.wall + s.toSeconds)).any (· ≤ now.wall)

theorem isFoundOver_eq {w : Moment × Pending}
    (h : ∀ s ∈ w.2.lifetime, (w.1.wall + s.toSeconds).isFinite = true ∧
      (Json.ofFloat (w.1.wall + s.toSeconds)).ReadsBack) (now : Moment) :
    isFoundOver now w = isOver now w := by
  obtain ⟨written, item, lifetime⟩ := w
  cases lifetime with
  | none => rfl
  | some s =>
      obtain ⟨hfinite, hback⟩ := h s rfl
      rw [isFoundOver, isOver, Option.bind_some, Envelope.reread?_of_readsBack hfinite hback]
      rfl

def takes (k : Key) (w : Moment × Pending) : Moment × Request → Bool
  | (now, .read _ j _) => decide (j = k) && isFoundOver now w
  | (_, r) => decide (k ∈ r.erased)

/-- The write is the last one of its key, and nothing has taken its file since. -/
def Stays (rs : History) (k : Key) (w : Moment × Pending) : Prop :=
  ∃ rs₁ r rs₂, rs = rs₁ ++ (w.1, r) :: rs₂ ∧ Pending.lastOf k r.writes = some w.2 ∧
    ∀ e ∈ rs₂, Pending.lastOf k e.2.writes = none ∧ ¬ takes k w e = true

def hold (k : Key) (w : Option (Moment × Pending)) (e : Moment × Request) :
    Option (Moment × Pending) :=
  ((Pending.lastOf k e.2.writes).map (e.1, ·)).or (w.filter fun v => !takes k v e)

def held (rs : History) (k : Key) : Option (Moment × Pending) := rs.foldl (hold k) none

theorem held_snoc (rs : History) (e : Moment × Request) (k : Key) :
    held (rs ++ [e]) k = hold k (held rs k) e := List.foldl_append

theorem mem_keys_of_writes {r : Request} {p : Pending} {k : Key} (h : p ∈ r.writes)
    (hk : p.item.key = k) : k ∈ r.keys := by
  subst hk
  cases r with
  | write form i o =>
      obtain rfl := List.mem_singleton.1 h
      exact List.mem_cons_self
  | writeAll means is o =>
      obtain ⟨i, hi, rfl⟩ := List.mem_map.1 h
      exact List.mem_map_of_mem hi
  | read | delete | ping | close => cases h

theorem hold_eq_some {k : Key} {w : Option (Moment × Pending)} {e : Moment × Request}
    {v : Moment × Pending} : hold k w e = some v ↔
      e.1 = v.1 ∧ Pending.lastOf k e.2.writes = some v.2 ∨
        Pending.lastOf k e.2.writes = none ∧ ¬ takes k v e = true ∧ w = some v := by
  cases hlast : Pending.lastOf k e.2.writes with
  | none => simp [hold, hlast, Option.filter_eq_some_iff, and_comm]
  | some q => simp [hold, hlast, Prod.ext_iff]

theorem held_eq_some_iff {rs : History} {k : Key} {w : Moment × Pending} :
    held rs k = some w ↔ Stays rs k w := History.foldl_eq_some_iff fun _ _ _ => hold_eq_some

section Serve

variable {ks : List Key} {w : Key → Option (Moment × Pending)} {d d' : Directory} {now : Moment}

theorem snd_serve (now : Moment) (r : Request) (d : Directory) :
    (store.serve now r d).2 = match r with
      | .read _ k _ => (d.read now k).2
      | .write _ i o => (d.write now i o.lifetime).2
      | .delete gone => (d.delete gone).2
      | .writeAll .. | .ping | .close => d := by
  cases r with
  | read form k context => exact snd_answered (d.read now k)
  | write form i o => exact snd_answered (d.write now i o.lifetime)
  | delete gone => exact snd_answered (d.delete gone)
  | writeAll | ping | close => rfl

def Tidy (ks : List Key) (d : Directory) : Prop :=
  ∀ name file, d.files.get? name = some file → ∃ k ∈ ks, name = fileName k

theorem Tidy.get?_of_isNew (h : Tidy ks d) {name : String} (hnew : isNew name = true) :
    d.files.get? name = none := by
  cases hfile : d.files.get? name with
  | none => rfl
  | some file =>
      obtain ⟨k, -, rfl⟩ := h name file hfile
      rw [isNew_fileName] at hnew
      cases hnew

theorem get?_remove_of_ne {name : String} {k : Key} (h : name ≠ fileName k) :
    (d.remove k).files.get? name = d.files.get? name := SortedMap.get?_erase_of_ne d.files h

theorem Tidy.remove (h : Tidy ks d) (k : Key) : Tidy ks (d.remove k) := by
  intro name file hfile
  by_cases hname : name = fileName k
  · have hnone : (d.remove k).files.get? (fileName k) = none := SortedMap.get?_erase_self _ _
    rw [hname, hnone] at hfile
    cases hfile
  · rw [get?_remove_of_ne hname] at hfile
    exact h name file hfile

theorem Tidy.read (h : Tidy ks d) (k : Key) : Tidy ks (d.read now k).2 := by
  simp only [Directory.read]
  split
  · exact h
  · split
    · exact h
    · exact h
    · split
      · exact h
      · split
        · exact h.remove k
        · exact h

theorem Tidy.delete (h : Tidy ks d) (gone : List Key) : Tidy ks (d.delete gone).2 := by
  induction gone generalizing d with
  | nil => exact h
  | cons k gone ih =>
      simp only [Directory.delete]
      split
      · exact h
      · split
        · exact ih h
        · exact h
        · have hrest := ih (h.remove k)
          split
          · rename_i heq
            rwa [heq] at hrest
          · rename_i heq
            rwa [heq] at hrest

theorem Tidy.write (h : Tidy ks d) (hfiled : Filed ks w d) {i : Item} (hi : i.key ∈ ks)
    {lifetime : Option Span} (hio : Unhindered (d.write now i lifetime).1) :
    Tidy ks (d.write now i lifetime).2 := by
  rw [hfiled.write_eq hi hio]
  intro name file hfile
  dsimp only at hfile
  rw [get?_written] at hfile
  split at hfile
  · rename_i hname
    exact ⟨i.key, hi, hname⟩
  · split at hfile
    · cases hfile
    · exact h name file hfile

theorem Tidy.serve (h : Tidy ks d) (hfiled : Filed ks w d) {r : Request}
    (hkeys : ∀ k ∈ r.keys, k ∈ ks) (hio : ∀ f ∈ (store.serve now r d).1.faults, f.kind ≠ "io") :
    Tidy ks (store.serve now r d).2 := by
  rw [snd_serve]
  cases r with
  | read form k context =>
      exact h.read k
  | write form i o =>
      have hwrite : Unhindered (d.write now i o.lifetime).1 := fun f hf =>
        hio f (mem_faults_answered.2 hf)
      exact h.write hfiled (hkeys i.key List.mem_cons_self) hwrite
  | writeAll | ping | close => exact h
  | delete gone =>
      exact h.delete gone

theorem Filed.snd_read (h : Filed ks w d) {k : Key} (hk : k ∈ ks)
    (hshallow : ∀ v, w k = some v → (filed v).value.nesting ≤ Envelope.deepest)
    (hio : Unhindered (d.read now k).1) :
    (d.read now k).2 = if (w k).any (isFoundOver now) then d.remove k else d := by
  have hfile := h k hk
  cases hlong : d.isTooLong (fileName k) with
  | true =>
      simp only [Directory.read, hlong, if_true] at hio
      exact (hio _ rfl rfl).elim
  | false =>
      cases hw : w k with
      | none =>
          rw [hw] at hfile
          simp [Directory.read, hlong, hfile]
      | some v =>
          rw [hw, Option.map_some] at hfile
          obtain ⟨e, he, hexpires⟩ := Envelope.exists_ofText? (hshallow v hw)
          have hover : e.isExpired now.wall = isFoundOver now v := by
            rw [Envelope.isExpired, hexpires, isFoundOver, filed, envelope]
            cases v.2.lifetime with
            | none => rfl
            | some s =>
                simp only [Option.map_some, Option.bind_some]
                cases Envelope.reread? (v.1.wall + s.toSeconds) <;> rfl
          simp only [Directory.read, hlong, hfile, he, hover, Option.any_some, Bool.false_eq_true,
            if_false]
          split <;> rfl

theorem hold_read (k : Key) (w : Option (Moment × Pending)) (now : Moment) (form : Form)
    (context : Context) :
    hold k w (now, .read form k context) = if w.any (isFoundOver now) then none else w := by
  cases w with
  | none => simp [hold, Request.writes, Pending.lastOf]
  | some v => cases hover : isFoundOver now v <;>
      simp [hold, Request.writes, Pending.lastOf, takes, Option.filter, hover]

theorem hold_read_of_ne {j k : Key} (h : j ≠ k) (w : Option (Moment × Pending)) (now : Moment)
    (form : Form) (context : Context) : hold k w (now, .read form j context) = w := by
  cases w <;> simp [hold, Request.writes, Pending.lastOf, takes, Option.filter, h]

theorem hold_eq {k : Key} {e : Moment × Request} (w : Option (Moment × Pending))
    (h : ∀ v, takes k v e = decide (k ∈ e.2.erased)) : hold k w e = History.revise k w e := by
  cases w with
  | none => simp [hold, History.revise]
  | some v => by_cases hk : k ∈ e.2.erased <;>
      simp [hold, History.revise, Option.filter, h v, hk]

theorem Filed.hold_read (h : Filed ks w d) (hdistinct : Distinct ks) {k : Key} (hk : k ∈ ks)
    (hshallow : ∀ v, w k = some v → (filed v).value.nesting ≤ Envelope.deepest)
    (hio : Unhindered (d.read now k).1) (form : Form) (context : Context) :
    Filed ks (fun j => hold j (w j) (now, .read form k context)) (d.read now k).2 := by
  rw [h.snd_read hk hshallow hio]
  intro j hj
  dsimp only
  by_cases hjk : j = k
  · subst hjk
    rw [Directory.hold_read]
    split
    · rw [h.remove hdistinct hk j hj]
      exact congrArg _ (if_pos rfl)
    · exact h j hj
  · rw [hold_read_of_ne (Ne.symm hjk), ← h j hj]
    split
    · rw [h.remove hdistinct hk j hj, h j hj]
      exact congrArg _ (if_neg hjk)
    · rfl

theorem Filed.hold (h : Filed ks w d) (hdistinct : Distinct ks) {r : Request}
    (hoffers : store.capabilities.offers r = true) (hkeys : ∀ k ∈ r.keys, k ∈ ks)
    (hshallow : ∀ k v, w k = some v → (filed v).value.nesting ≤ Envelope.deepest)
    (hio : ∀ f ∈ (store.serve now r d).1.faults, f.kind ≠ "io") :
    Filed ks (fun k => hold k (w k) (now, r)) (store.serve now r d).2 := by
  rw [snd_serve]
  cases r with
  | read form k context =>
      have hread : Unhindered (d.read now k).1 := fun f hf => hio f (mem_faults_answered.2 hf)
      exact h.hold_read hdistinct (hkeys k List.mem_cons_self) (hshallow k) hread form context
  | write form i o =>
      have hwrite : Unhindered (d.write now i o.lifetime).1 := fun f hf =>
        hio f (mem_faults_answered.2 hf)
      refine (h.write hdistinct (hkeys i.key List.mem_cons_self) hwrite).congr fun k hk => ?_
      rw [hold_eq (w k) fun _ => rfl]
      by_cases hkey : i.key = k <;>
        simp [History.revise, Request.writes, Request.erased, Pending.lastOf_singleton, hkey]
  | writeAll means is o => cases means <;> cases hoffers
  | delete gone =>
      have hdelete : Unhindered (d.delete gone).1 := fun f hf => hio f (mem_faults_answered.2 hf)
      have hgone : ∀ k ∈ gone, k ∈ ks := hkeys
      refine (h.delete hdistinct hgone hdelete).congr fun k hk => ?_
      rw [hold_eq (w k) fun _ => rfl]
      rfl
  | ping | close =>
      refine h.congr fun k hk => ?_
      rw [hold_eq (w k) fun _ => rfl]
      rfl

end Serve

section Frame

variable {ks : List Key} {d : Directory} {now : Moment} {name : String}

theorem get?_read {k : Key} (h : name ≠ fileName k) :
    (d.read now k).2.files.get? name = d.files.get? name := by
  simp only [Directory.read]
  split
  · rfl
  · split
    · rfl
    · rfl
    · split
      · rfl
      · split
        · exact get?_remove_of_ne h
        · rfl

theorem get?_write {i : Item} (hnew : isNew name = false) (h : name ≠ fileName i.key)
    (lifetime : Option Span) :
    (d.write now i lifetime).2.files.get? name = d.files.get? name := by
  rcases write_cases now i lifetime d with
    ⟨o, -, hwrite⟩ | ⟨-, ⟨f, -, hwrite⟩ | ⟨-, hwrite⟩⟩
  · rw [hwrite]
  · rw [hwrite]
    exact SortedMap.get?_insert_of_ne _ (ne_newName hnew _ _ _) _
  · rw [hwrite]
    exact (get?_written d i.key _ d.next name).trans
      ((if_neg h).trans (if_neg (ne_newName hnew _ _ _)))

theorem get?_delete {gone : List Key} (h : ∀ k ∈ gone, name ≠ fileName k) :
    (d.delete gone).2.files.get? name = d.files.get? name := by
  induction gone generalizing d with
  | nil => rfl
  | cons j gone ih =>
      obtain ⟨hj, hgone⟩ := List.forall_mem_cons.1 h
      simp only [Directory.delete]
      split
      · rfl
      · split
        · exact ih hgone
        · rfl
        · have hrest := ih (d := d.remove j) hgone
          rw [get?_remove_of_ne hj] at hrest
          split
          · rename_i heq
            rwa [heq] at hrest
          · rename_i heq
            rwa [heq] at hrest

/-- A request leaves all other files as they are, but for new ones. -/
theorem get?_serve {r : Request} (hnew : isNew name = false) (h : ∀ k ∈ r.keys, name ≠ fileName k) :
    (store.serve now r d).2.files.get? name = d.files.get? name := by
  rw [snd_serve]
  cases r with
  | read form k context =>
      exact get?_read (h k List.mem_cons_self)
  | write form i o =>
      have hname : name ≠ fileName i.key := h i.key List.mem_cons_self
      exact get?_write hnew hname o.lifetime
  | delete gone =>
      exact get?_delete h
  | writeAll | ping | close => rfl

def present (d : Directory) (gone : List Key) : Finset Key :=
  gone.toFinset.filter fun k => (d.find? k).isSome = true

theorem present_cons_of_none {j : Key} (h : d.find? j = none) (gone : List Key) :
    d.present (j :: gone) = d.present gone := by
  rw [present, List.toFinset_cons, Finset.filter_insert, if_neg (by simp [h])]
  rfl

theorem present_remove (hdistinct : Distinct ks) {j : Key} (hj : j ∈ ks) {gone : List Key}
    (hgone : ∀ k ∈ gone, k ∈ ks) : (d.remove j).present gone = (d.present gone).erase j := by
  ext k
  rw [Finset.mem_erase, present, present, Finset.mem_filter, Finset.mem_filter, List.mem_toFinset]
  constructor
  · rintro ⟨hk, hsome⟩
    rw [hdistinct.find?_remove hj (hgone k hk)] at hsome
    by_cases hkj : k = j
    · simp [hkj] at hsome
    · exact ⟨hkj, hk, by simpa [hkj] using hsome⟩
  · rintro ⟨hkj, hk, hsome⟩
    rw [hdistinct.find?_remove hj (hgone k hk), if_neg hkj]
    exact ⟨hk, hsome⟩

theorem card_present_cons_of_some (hdistinct : Distinct ks) {j : Key} (hj : j ∈ ks)
    {gone : List Key} (hgone : ∀ k ∈ gone, k ∈ ks) {file : File} (h : d.find? j = some file) :
    (d.present (j :: gone)).card = ((d.remove j).present gone).card + 1 := by
  have hcons : d.present (j :: gone) = insert j (d.present gone) := by
    rw [present, List.toFinset_cons, Finset.filter_insert, if_pos (by simp [h])]
    rfl
  rw [present_remove hdistinct hj hgone, hcons, ← Finset.erase_insert_eq_erase,
    Finset.card_erase_add_one (Finset.mem_insert_self _ _)]

/-- A key that is given twice has no file the second time. -/
theorem fst_delete (hdistinct : Distinct ks) {gone : List Key} (hgone : ∀ k ∈ gone, k ∈ ks)
    (hio : Unhindered (d.delete gone).1) : (d.delete gone).1 = .ok (d.present gone).card := by
  induction gone generalizing d with
  | nil => rfl
  | cons j gone ih =>
      obtain ⟨hj, hrest⟩ := List.forall_mem_cons.1 hgone
      simp only [Directory.delete] at hio ⊢
      split at hio
      · exact (hio _ rfl rfl).elim
      · rename_i hlong
        rw [if_neg hlong]
        cases hfile : d.find? j with
        | none =>
            rw [hfile] at hio
            rw [present_cons_of_none hfile]
            exact ih hrest hio
        | some file =>
            cases file with
            | folder f =>
                rw [hfile] at hio
                exact (hio _ rfl rfl).elim
            | text content =>
                rw [card_present_cons_of_some hdistinct hj hrest hfile]
                rw [hfile] at hio
                have hcount := ih (d := d.remove j) hrest
                cases hdelete : (d.remove j).delete gone with
                | mk answer d' =>
                    rw [hdelete] at hcount hio
                    cases answer with
                    | ok n =>
                        obtain rfl : n = _ := Except.ok.inj (hcount (unhindered_ok n))
                        rfl
                    | error f =>
                        cases hcount fun g hg => hio g (by rw [← hg])

end Frame

/-- A history that finds an empty directory and nothing in its way. No two keys share a file, and no
reply nests too deep for its file to be read. -/
structure Clean (d : Directory) (rs : History) : Prop where
  empty : d.files = SortedMap.empty
  offers : ∀ e ∈ rs, store.capabilities.offers e.2 = true
  io : ∀ f ∈ store.faults rs d, f.kind ≠ "io"
  distinct : Distinct (rs.flatMap fun e => e.2.keys)
  shallow : ∀ e ∈ rs, ∀ p ∈ e.2.writes, p.item.entry.reply.nesting ≤ 125

variable {d : Directory} {rs rs' : History} {now : Moment} {r : Request}

theorem Clean.earlier (h : Clean d rs') (hpre : rs <+: rs') : Clean d rs := by
  obtain ⟨more, rfl⟩ := hpre
  have hfaults := h.io
  have hdistinct := h.distinct
  rw [Store.faults_append] at hfaults
  rw [List.flatMap_append] at hdistinct
  exact {
    empty := h.empty
    offers := fun e he => h.offers e (List.mem_append_left _ he)
    io := fun f hf => hfaults f (List.mem_append_left _ hf)
    distinct := fun j hj k hk =>
      hdistinct j (List.mem_append_left _ hj) k (List.mem_append_left _ hk)
    shallow := fun e he => h.shallow e (List.mem_append_left _ he) }

theorem Clean.unhindered (h : Clean d rs') (hpre : rs ++ [(now, r)] <+: rs') :
    ∀ f ∈ (store.serve now r (store.run rs d)).1.faults, f.kind ≠ "io" := by
  intro f hf
  apply (h.earlier hpre).io f
  rw [Store.faults_append]
  exact List.mem_append_right _ (List.mem_append_left _ hf)

theorem Clean.shallow_held (h : Clean d rs) {k : Key} {w : Moment × Pending}
    (hw : held rs k = some w) : (filed w).value.nesting ≤ Envelope.deepest := by
  obtain ⟨rs₁, r, rs₂, rfl, hlast, -⟩ := held_eq_some_iff.1 hw
  have hshallow := h.shallow (w.1, r) (by simp) w.2 (Pending.key_of_lastOf hlast).1
  exact (nesting_le_deepest w).2 (by omega)

theorem Clean.filed (h : Clean d rs') (hpre : rs <+: rs') :
    Tidy (rs'.flatMap fun e => e.2.keys) (store.run rs d) ∧
      Filed (rs'.flatMap fun e => e.2.keys) (held rs) (store.run rs d) := by
  induction rs using List.reverseRecOn with
  | nil =>
      have hnone : ∀ name, (store.run [] d).files.get? name = none := by
        intro name
        rw [show (store.run [] d).files = SortedMap.empty from h.empty]
        rfl
      refine ⟨fun name file hfile => ?_, fun k hk => hnone (fileName k)⟩
      rw [hnone name] at hfile
      cases hfile
  | append_singleton rs e ih =>
      have hbefore := (List.prefix_append rs [e]).trans hpre
      have he : e ∈ rs' := hpre.subset (by simp)
      have hkeys : ∀ k ∈ e.2.keys, k ∈ rs'.flatMap fun e => e.2.keys := fun k hk =>
        List.mem_flatMap.2 ⟨e, he, hk⟩
      obtain ⟨htidy, hfiled⟩ := ih hbefore
      rw [Store.run_snoc]
      refine ⟨htidy.serve hfiled hkeys (h.unhindered hpre), ?_⟩
      refine (hfiled.hold h.distinct (h.offers e he) hkeys
        (fun k w hw => (h.earlier hbefore).shallow_held hw) (h.unhindered hpre)).congr
        fun k hk => ?_
      exact (held_snoc rs e k).symm

theorem Clean.get?_eq_some_iff (h : Clean d rs') (hpre : rs <+: rs') {name : String}
    {file : File} : (store.run rs d).files.get? name = some file ↔
      ∃ k w, Stays rs k w ∧ name = fileName k ∧ file = .text (Directory.filed w).text := by
  obtain ⟨htidy, hfiled⟩ := h.filed hpre
  constructor
  · intro hfile
    obtain ⟨k, hk, rfl⟩ := htidy name file hfile
    obtain ⟨w, hw, rfl⟩ := Option.map_eq_some_iff.1 ((hfiled k hk).symm.trans hfile)
    exact ⟨k, w, held_eq_some_iff.1 hw, rfl, rfl⟩
  · rintro ⟨k, w, hstays, rfl, rfl⟩
    have hk : k ∈ rs'.flatMap fun e => e.2.keys := by
      obtain ⟨rs₁, r, rs₂, rfl, hlast, -⟩ := hstays
      obtain ⟨hmem, hkey⟩ := Pending.key_of_lastOf hlast
      exact List.mem_flatMap.2 ⟨(w.1, r), hpre.subset (by simp), mem_keys_of_writes hmem hkey⟩
    exact (hfiled k hk).trans (by rw [held_eq_some_iff.2 hstays]; rfl)

/-- All along a history there are no new files, and there is one file for each key that was written
and has been neither deleted since nor read when its lifetime was over, by the end of it that stands
in the file. A request changes only the files of its own keys, and a deletion counts those of its
keys that have a file. -/
theorem contents_of_run (h : Clean d rs') :
    (∀ rs, rs <+: rs' → (∀ name, isNew name = true → (store.run rs d).files.get? name = none) ∧
      ∀ name file, (store.run rs d).files.get? name = some file ↔
        ∃ k w, Stays rs k w ∧ name = fileName k ∧ file = .text (filed w).text) ∧
      (∀ rs now r, rs ++ [(now, r)] <+: rs' →
        (∀ k ∈ rs'.flatMap fun e => e.2.keys, k ∉ r.keys →
          (store.serve now r (store.run rs d)).2.find? k = (store.run rs d).find? k) ∧
        ∀ gone, r = .delete gone →
          (store.serve now (.delete gone) (store.run rs d)).1 =
            .ok ((store.run rs d).present gone).card) ∧
      ∀ now w, (∀ s ∈ w.2.lifetime, (w.1.wall + s.toSeconds).isFinite = true ∧
          (Json.ofFloat (w.1.wall + s.toSeconds)).ReadsBack) →
        (isFoundOver now w = true ↔
          ∃ s ∈ w.2.lifetime, w.1.wall + s.toSeconds ≤ now.wall) := by
  refine ⟨fun rs hpre => ⟨fun name => (h.filed hpre).1.get?_of_isNew, fun name file =>
    h.get?_eq_some_iff hpre⟩, fun rs now r hpre => ⟨fun k hk hother =>
      get?_serve (isNew_fileName k) fun j hj heq => hother ?_, ?_⟩, fun now w hback => ?_⟩
  · have hj' := mem_keys_of_snoc hpre hj
    rwa [(h.distinct.fileName_eq_iff hj' hk).1 heq]
  · rintro gone rfl
    have hio : Unhindered ((store.run rs d).delete gone).1 := fun f hf =>
      h.unhindered hpre f (mem_faults_answered.2 hf)
    have hgone : ∀ k ∈ gone, k ∈ rs'.flatMap fun e => e.2.keys := fun k hk =>
      mem_keys_of_snoc hpre hk
    change (answered ((store.run rs d).delete gone)).1 = _
    rw [answered, fst_delete h.distinct hgone hio]
    rfl
  · rw [isFoundOver_eq hback, isOver, Option.any_eq_true]
    simp

def emptied : History :=
  [(⟨0, 0⟩, .write .async ⟨⟨"a"⟩, ⟨0, .string "hello"⟩⟩ { lifetime := Span.ofSeconds? 60 }),
    (⟨0, 0⟩, .write .blocking ⟨⟨"b"⟩, ⟨0, .null⟩⟩ {}),
    (⟨30, 0⟩, .read .async ⟨"a"⟩ {}),
    (⟨60, 0⟩, .read .blocking ⟨"a"⟩ {}),
    (⟨60, 0⟩, .delete [⟨"b"⟩, ⟨"a"⟩, ⟨"b"⟩])]

theorem clean_emptied : Clean {} emptied where
  empty := rfl
  offers := by decide
  io := by
    have hclear : Clear [⟨"a"⟩, ⟨"b"⟩] 5 {} :=
      ⟨rfl, rfl, by decide +kernel, by decide +kernel, nofun⟩
    exact hclear.faults (by decide)
  distinct := by
    have hkeys : ∀ k ∈ emptied.flatMap fun e => e.2.keys, k = ⟨"a"⟩ ∨ k = ⟨"b"⟩ := by decide
    have hne : Sha256.hex "a" ≠ Sha256.hex "b" := by decide +kernel
    intro j hj k hk heq
    rcases hkeys j hj with rfl | rfl <;> rcases hkeys k hk with rfl | rfl
    · rfl
    · exact (hne heq).elim
    · exact (hne heq.symm).elim
    · rfl
  shallow := by decide

def minute : Moment × Pending := (⟨0, 0⟩, ⟨⟨⟨"a"⟩, ⟨0, .string "hello"⟩⟩, Span.ofSeconds? 60⟩)

theorem contents_of_run_emptied :
    (store.run (emptied.take 3) {}).find? ⟨"a"⟩ = some (.text (filed minute).text) ∧
      isFoundOver ⟨60, 0⟩ minute = true ∧ (store.run (emptied.take 4) {}).find? ⟨"a"⟩ = none ∧
      (store.run (emptied.take 4) {}).find? ⟨"b"⟩ = (store.run (emptied.take 3) {}).find? ⟨"b"⟩ ∧
      (store.serve ⟨60, 0⟩ (.delete [⟨"b"⟩, ⟨"a"⟩, ⟨"b"⟩]) (store.run (emptied.take 4) {})).1 =
        .ok 1 := by
  obtain ⟨hfiles, hrequests, hover⟩ := contents_of_run clean_emptied
  refine ⟨?_, ?_, by decide +kernel, ?_, ?_⟩
  · refine ((hfiles (emptied.take 3) (List.take_prefix 3 _)).2 _ _).2 ⟨⟨"a"⟩, minute, ?_, rfl, rfl⟩
    exact held_eq_some_iff.1 (by decide +kernel)
  · have hspan : minute.2.lifetime = some ⟨60000000000, by decide⟩ := by decide +kernel
    refine (hover ⟨60, 0⟩ minute fun s hs => ?_).2 ⟨_, hspan, by decide +kernel⟩
    obtain rfl := Option.some.inj (hspan.symm.trans hs)
    exact ⟨by decide +kernel, Json.readsBack_ofFloat (by decide +kernel) (by decide +kernel)⟩
  · have hread := hrequests (emptied.take 3) ⟨60, 0⟩ (.read .blocking ⟨"a"⟩ {})
      (List.take_prefix 4 emptied)
    exact hread.1 ⟨"b"⟩ (by decide) (by decide)
  · refine ((hrequests (emptied.take 4) ⟨60, 0⟩ _ (List.take_prefix 5 emptied)).2 _ rfl).trans ?_
    decide +kernel

end Directory

end ReplyCache
