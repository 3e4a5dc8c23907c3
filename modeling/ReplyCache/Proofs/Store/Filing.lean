import ReplyCache.Proofs.Store.Envelope
import ReplyCache.Proofs.Store.Obstacles

namespace ReplyCache

namespace Directory

def filed (w : Moment × Pending) : Envelope := envelope w.1 w.2.item w.2.lifetime

/-- Whether the lifetime of a write is over. -/
def isOver (now : Moment) (w : Moment × Pending) : Bool :=
  w.2.lifetime.any fun s => w.1.wall + s.toSeconds ≤ now.wall

theorem isExpired_filed (now : Moment) (w : Moment × Pending) :
    (filed w).isExpired now.wall = isOver now w := by
  obtain ⟨time, item, lifetime⟩ := w
  cases lifetime <;> rfl

theorem isOver_of_le {now now' : Moment} {w : Moment × Pending} (h : isOver now w = true)
    (hle : now.wall ≤ now'.wall) : isOver now' w = true := by
  rw [← isExpired_filed] at h ⊢
  exact Envelope.isExpired_of_le h hle

def isDue (now : Moment) (w : Moment × Pending) : Bool :=
  (filed w).value.nesting ≤ Envelope.deepest && isOver now w

def reading (now : Moment) : Option (Moment × Pending) → Except Fault (Option Json)
  | none => .ok none
  | some w =>
    if (filed w).value.nesting ≤ Envelope.deepest then
      .ok (if isOver now w then none else some (filed w).value)
    else .error isNoRecord

def refile (k : Key) (w : Option (Moment × Pending)) :
    Moment × Request → Option (Moment × Pending)
  | (now, .read _ j _) => if j = k then w.filter fun v => !isDue now v else w
  | e => History.revise k w e

def onFile (rs : History) (k : Key) : Option (Moment × Pending) := rs.foldl (refile k) none

theorem onFile_snoc (rs : History) (e : Moment × Request) (k : Key) :
    onFile (rs ++ [e]) k = refile k (onFile rs k) e := List.foldl_append

theorem refile_read (k : Key) (w : Option (Moment × Pending)) (now : Moment) (form : Form)
    (context : Context) : refile k w (now, .read form k context) =
      if w.any (isDue now) then none else w := by
  simp only [refile, if_true]
  cases w with
  | none => rfl
  | some v => cases hdue : isDue now v <;> simp [Option.filter, hdue]

theorem refile_read_of_ne {j k : Key} (h : j ≠ k) (w : Option (Moment × Pending)) (now : Moment)
    (form : Form) (context : Context) : refile k w (now, .read form j context) = w := if_neg h

theorem revise_read (k : Key) (w : Option (Moment × Pending)) (now : Moment) (form : Form) (j : Key)
    (context : Context) : History.revise k w (now, .read form j context) = w := by
  simp [History.revise, Request.writes, Request.erased, Pending.lastOf]

theorem revise_none (k : Key) (v : Moment × Pending) (e : Moment × Request) :
    History.revise k none e = History.revise k (some v) e ∨
      History.revise k none e = none ∧ History.revise k (some v) e = some v := by
  cases hlast : Pending.lastOf k e.2.writes with
  | none => by_cases hk : k ∈ e.2.erased <;> simp [History.revise, hlast, hk]
  | some p => simp [History.revise, hlast]

theorem refile_cases (k : Key) (w : Option (Moment × Pending)) (e : Moment × Request) :
    refile k w e = History.revise k w e ∨
      refile k w e = none ∧ ∃ v, History.revise k w e = some v ∧ isDue e.1 v = true := by
  obtain ⟨now, r⟩ := e
  cases r with
  | read form j context =>
      rw [revise_read]
      by_cases hj : j = k
      · subst hj
        rw [refile_read]
        cases w with
        | none => exact .inl rfl
        | some v =>
            cases hdue : isDue now v with
            | false => exact .inl (if_neg (by simp [hdue]))
            | true => exact .inr ⟨if_pos hdue, v, rfl, hdue⟩
      · exact .inl (refile_read_of_ne hj w now form context)
  | write | writeAll | delete | ping | close => exact .inl rfl

/-- Only what has expired can stand without being on file. -/
theorem onFile_cases (rs : History) (k : Key) : onFile rs k = rs.standing k ∨
    onFile rs k = none ∧ ∃ w, rs.standing k = some w ∧ ∃ e ∈ rs, isDue e.1 w = true := by
  induction rs using List.reverseRecOn with
  | nil => exact .inl rfl
  | append_singleton rs e ih =>
      rw [onFile_snoc, History.standing_snoc]
      -- A write or a deletion changes both alike; only a read can change the one alone.
      have hrevise : History.revise k (onFile rs k) e = History.revise k (History.standing rs k) e ∨
          History.revise k (onFile rs k) e = none ∧ ∃ w,
            History.revise k (History.standing rs k) e = some w ∧
              ∃ e' ∈ rs ++ [e], isDue e'.1 w = true := by
        rcases ih with heq | ⟨hnone, w, hw, e', he', hdue⟩
        · exact .inl (by rw [heq])
        · rw [hnone, hw]
          rcases revise_none k w e with heq | ⟨hnone, hsome⟩
          · exact .inl heq
          · exact .inr ⟨hnone, w, hsome, e', List.mem_append_left _ he', hdue⟩
      rcases refile_cases k (onFile rs k) e with heq | ⟨hnone, w, hw, hdue⟩
      · rw [heq]
        exact hrevise
      · rcases hrevise with heq | ⟨hgone, -⟩
        · exact .inr ⟨hnone, w, by rw [← heq, hw], e, by simp, hdue⟩
        · rw [hgone] at hw
          cases hw

section Filed

variable {ks : List Key} {w : Key → Option (Moment × Pending)} {d : Directory} {now : Moment}

def Filed (ks : List Key) (w : Key → Option (Moment × Pending)) (d : Directory) : Prop :=
  ∀ k ∈ ks, d.find? k = (w k).map fun v => .text (filed v).text

/-- No two of the keys have the same digest. -/
def Distinct (ks : List Key) : Prop :=
  ∀ j ∈ ks, ∀ k ∈ ks, Sha256.hex j.text = Sha256.hex k.text → j = k

theorem Distinct.fileName_eq_iff (h : Distinct ks) {j k : Key} (hj : j ∈ ks) (hk : k ∈ ks) :
    fileName k = fileName j ↔ k = j := by
  constructor
  · intro heq
    exact h k hk j hj ((String.append_left_inj _).1 heq)
  · rintro rfl
    rfl

theorem Distinct.find?_remove (h : Distinct ks) {j k : Key} (hj : j ∈ ks) (hk : k ∈ ks) :
    (d.remove j).find? k = if k = j then none else d.find? k := by
  rw [Directory.find?_remove]
  simp only [h.fileName_eq_iff hj hk]

theorem Filed.congr {w' : Key → Option (Moment × Pending)} (h : Filed ks w d)
    (heq : ∀ k ∈ ks, w k = w' k) : Filed ks w' d := by
  intro k hk
  rw [← heq k hk]
  exact h k hk

theorem Filed.remove (h : Filed ks w d) (hdistinct : Distinct ks) {j : Key} (hj : j ∈ ks) :
    Filed ks (fun k => if k = j then none else w k) (d.remove j) := by
  intro k hk
  rw [hdistinct.find?_remove hj hk]
  dsimp only
  split
  · rfl
  · exact h k hk

theorem Filed.read_eq (h : Filed ks w d) {k : Key} (hk : k ∈ ks)
    (hback : ∀ v, w k = some v → (filed v).ReadsBack)
    (hio : Unhindered (d.read now k).1) :
    d.read now k = (reading now (w k), if (w k).any (isDue now) then d.remove k else d) := by
  have hfile := h k hk
  cases hlong : d.isTooLong (fileName k) with
  | true =>
      simp only [read, hlong, if_true] at hio
      exact (hio _ rfl rfl).elim
  | false =>
      cases hw : w k with
      | none =>
          rw [hw] at hfile
          simp [read, hlong, hfile, reading]
      | some v =>
          rw [hw, Option.map_some] at hfile
          have htext := Envelope.ofText?_text (hback v hw)
          by_cases hdepth : (filed v).value.nesting ≤ Envelope.deepest
          · rw [if_pos hdepth] at htext
            have hdue : isDue now v = isOver now v := by
              rw [isDue, decide_eq_true hdepth, Bool.true_and]
            have hreading : reading now (some v) =
                .ok (if isOver now v then none else some (filed v).value) := if_pos hdepth
            simp only [read, hlong, hfile, htext, hreading, Option.any_some, hdue,
              isExpired_filed]
            cases isOver now v <;> rfl
          · rw [if_neg hdepth] at htext
            have hdue : isDue now v = false := by
              rw [isDue, decide_eq_false hdepth, Bool.false_and]
            have hreading : reading now (some v) = .error isNoRecord := if_neg hdepth
            simp only [read, hlong, hfile, htext, hreading, Option.any_some, hdue]
            rfl

theorem Filed.read (h : Filed ks w d) (hdistinct : Distinct ks) {k : Key} (hk : k ∈ ks)
    (hback : ∀ v, w k = some v → (filed v).ReadsBack)
    (hio : Unhindered (d.read now k).1) (form : Form) (context : Context) :
    Filed ks (fun j => refile j (w j) (now, .read form k context)) (d.read now k).2 := by
  rw [h.read_eq hk hback hio]
  intro j hj
  dsimp only
  by_cases hjk : j = k
  · subst hjk
    rw [refile_read]
    split
    · rw [h.remove hdistinct hk j hj]
      exact congrArg _ (if_pos rfl)
    · exact h j hj
  · rw [refile_read_of_ne (Ne.symm hjk), ← h j hj]
    split
    · rw [h.remove hdistinct hk j hj, h j hj]
      exact congrArg _ (if_neg hjk)
    · rfl

theorem Filed.not_folder (h : Filed ks w d) {k : Key} (hk : k ∈ ks) (f : Folder) :
    d.find? k ≠ some (.folder f) := by
  rw [h k hk]
  cases w k <;> simp

theorem Filed.write_eq (h : Filed ks w d) {i : Item} (hi : i.key ∈ ks) {lifetime : Option Span}
    (hio : Unhindered (d.write now i lifetime).1) :
    d.write now i lifetime = (.ok (), { d with
      next := d.next + 1
      files := (d.files.erase (newName d.host.process d.next i.key)).insert (fileName i.key)
        (.text (filed (now, ⟨i, lifetime⟩)).text) }) := by
  rcases write_cases now i lifetime d with ⟨o, -, hwrite⟩ | ⟨-, ⟨f, hf, -⟩ | ⟨-, hwrite⟩⟩
  · rw [hwrite] at hio
    exact (hio _ rfl rfl).elim
  · exact (h.not_folder hi f hf).elim
  · exact hwrite

theorem Filed.write (h : Filed ks w d) (hdistinct : Distinct ks) {i : Item} (hi : i.key ∈ ks)
    {lifetime : Option Span} (hio : Unhindered (d.write now i lifetime).1) :
    Filed ks (fun k => if i.key = k then some (now, ⟨i, lifetime⟩) else w k)
      (d.write now i lifetime).2 := by
  rw [h.write_eq hi hio]
  intro k hk
  have hname : fileName k = fileName i.key ↔ i.key = k :=
    (hdistinct.fileName_eq_iff hi hk).trans eq_comm
  rw [find?]
  dsimp only
  rw [get?_written, if_neg (ne_newName (isNew_fileName k) _ _ _)]
  simp only [hname]
  split
  · rfl
  · exact h k hk

theorem Filed.delete_cons (h : Filed ks w d) (hdistinct : Distinct ks) {j : Key} (hj : j ∈ ks)
    (gone : List Key) (hio : Unhindered (d.delete (j :: gone)).1) :
    ∃ d', Filed ks (fun k => if k = j then none else w k) d' ∧
      (d.delete (j :: gone)).2 = (d'.delete gone).2 ∧
      ∀ f, (d'.delete gone).1 = .error f → (d.delete (j :: gone)).1 = .error f := by
  cases hlong : d.isTooLong (fileName j) with
  | true =>
      simp only [Directory.delete, hlong, if_true] at hio
      exact (hio _ rfl rfl).elim
  | false =>
      simp only [Directory.delete, hlong]
      cases hfile : d.find? j with
      | none =>
          refine ⟨d, h.congr fun k hk => ?_, rfl, fun f hf => hf⟩
          split
          · rename_i heq
            rw [← heq, h k hk] at hfile
            exact Option.map_eq_none_iff.1 hfile
          · rfl
      | some file =>
          cases file with
          | folder f => exact (h.not_folder hj f hfile).elim
          | text content =>
              refine ⟨d.remove j, h.remove hdistinct hj, ?_⟩
              dsimp only
              cases (d.remove j).delete gone with
              | mk answer d' =>
                  cases answer with
                  | ok n =>
                      refine ⟨rfl, fun g hg => ?_⟩
                      cases hg
                  | error f => exact ⟨rfl, fun g hg => hg⟩

theorem Filed.delete (h : Filed ks w d) (hdistinct : Distinct ks) {gone : List Key}
    (hgone : ∀ k ∈ gone, k ∈ ks) (hio : Unhindered (d.delete gone).1) :
    Filed ks (fun k => if k ∈ gone then none else w k) (d.delete gone).2 := by
  induction gone generalizing d w with
  | nil => simpa [Directory.delete] using h
  | cons j gone ih =>
      obtain ⟨hj, hgone⟩ := List.forall_mem_cons.1 hgone
      obtain ⟨d', hd', hcontents, herror⟩ := h.delete_cons hdistinct hj gone hio
      rw [hcontents]
      refine (ih hd' hgone fun f hf => hio f (herror f hf)).congr fun k hk => ?_
      by_cases hkj : k = j <;> simp [hkj]

theorem Filed.serve (h : Filed ks w d) (hdistinct : Distinct ks) {r : Request}
    (hoffers : store.capabilities.offers r = true) (hkeys : ∀ k ∈ r.keys, k ∈ ks)
    (hback : ∀ k v, w k = some v → (filed v).ReadsBack)
    (hio : ∀ f ∈ (store.serve now r d).1.faults, f.kind ≠ "io") :
    Filed ks (fun k => refile k (w k) (now, r)) (store.serve now r d).2 := by
  cases r with
  | read form k context =>
      have hread : Unhindered (d.read now k).1 := by
        intro f hf
        exact hio f (mem_faults_answered.2 hf)
      change Filed ks _ (answered (d.read now k)).2
      rw [snd_answered]
      exact h.read hdistinct (hkeys k List.mem_cons_self) (hback k) hread form context
  | write form i o =>
      have hwrite : Unhindered (d.write now i o.lifetime).1 := by
        intro f hf
        exact hio f (mem_faults_answered.2 hf)
      change Filed ks _ (answered (d.write now i o.lifetime)).2
      rw [snd_answered]
      refine (h.write hdistinct (hkeys i.key List.mem_cons_self) hwrite).congr fun k hk => ?_
      by_cases hkey : i.key = k <;>
        simp [refile, History.revise, Request.writes, Request.erased, Pending.lastOf_singleton,
          hkey]
  | writeAll means is o => cases means <;> cases hoffers
  | delete gone =>
      have hdelete : Unhindered (d.delete gone).1 := by
        intro f hf
        exact hio f (mem_faults_answered.2 hf)
      change Filed ks _ (answered (d.delete gone)).2
      rw [snd_answered]
      have hgone : ∀ k ∈ gone, k ∈ ks := hkeys
      exact (h.delete hdistinct hgone hdelete).congr fun k hk => rfl
  | ping | close => exact h.congr fun k hk => rfl

end Filed

/-- A history that finds an empty directory and nothing in its way. The wall clock does not go back,
no two keys share a file, and what is written is read as it was. -/
structure Orderly (d : Directory) (rs : History) : Prop where
  empty : d.files = SortedMap.empty
  offers : ∀ e ∈ rs, store.capabilities.offers e.2 = true
  clock : rs.Pairwise fun e e' => e.1.wall ≤ e'.1.wall
  io : ∀ f ∈ store.faults rs d, f.kind ≠ "io"
  distinct : Distinct (rs.flatMap fun e => e.2.keys)
  readsBack : ∀ e ∈ rs, ∀ p ∈ e.2.writes, (filed (e.1, p)).ReadsBack

variable {d : Directory} {rs rs' : History} {now : Moment}

theorem standing_of_onFile {k : Key} {w : Moment × Pending} (h : onFile rs k = some w) :
    rs.standing k = some w := by
  rcases onFile_cases rs k with heq | ⟨hnone, -⟩
  · rw [← heq, h]
  · rw [hnone] at h
    cases h

theorem Orderly.earlier (h : Orderly d rs') (hpre : rs <+: rs') : Orderly d rs := by
  obtain ⟨more, rfl⟩ := hpre
  have hfaults := h.io
  have hdistinct := h.distinct
  rw [Store.faults_append] at hfaults
  rw [List.flatMap_append] at hdistinct
  exact {
    empty := h.empty
    offers := fun e he => h.offers e (List.mem_append_left _ he)
    clock := (List.pairwise_append.1 h.clock).1
    io := fun f hf => hfaults f (List.mem_append_left _ hf)
    distinct := fun j hj k hk =>
      hdistinct j (List.mem_append_left _ hj) k (List.mem_append_left _ hk)
    readsBack := fun e he => h.readsBack e (List.mem_append_left _ he) }

theorem Orderly.readsBack_onFile (h : Orderly d rs) {k : Key} {w : Moment × Pending}
    (hw : onFile rs k = some w) : (filed w).ReadsBack := by
  obtain ⟨e, he, hmoment, hmem, -⟩ := History.mem_of_standing (standing_of_onFile hw)
  have hback := h.readsBack e he w.2 hmem
  rwa [hmoment] at hback

theorem Orderly.unhindered (h : Orderly d rs') {r : Request} (hpre : rs ++ [(now, r)] <+: rs') :
    ∀ f ∈ (store.serve now r (store.run rs d)).1.faults, f.kind ≠ "io" := by
  intro f hf
  apply (h.earlier hpre).io f
  rw [Store.faults_append]
  exact List.mem_append_right _ (List.mem_append_left _ hf)

theorem Orderly.filed (h : Orderly d rs') (hpre : rs <+: rs') :
    Filed (rs'.flatMap fun e => e.2.keys) (onFile rs) (store.run rs d) := by
  induction rs using List.reverseRecOn with
  | nil =>
      intro k hk
      rw [find?, show (store.run [] d).files = SortedMap.empty from h.empty]
      rfl
  | append_singleton rs e ih =>
      have hbefore := (List.prefix_append rs [e]).trans hpre
      have he : e ∈ rs' := hpre.subset (by simp)
      rw [Store.run_snoc]
      refine ((ih hbefore).serve h.distinct (h.offers e he) (fun k hk => ?_)
        (fun k w hw => (h.earlier hbefore).readsBack_onFile hw) (h.unhindered hpre)).congr
        fun k hk => ?_
      · exact List.mem_flatMap.2 ⟨e, he, hk⟩
      · exact (onFile_snoc rs e k).symm

theorem mem_keys_of_snoc {r : Request} (hpre : rs ++ [(now, r)] <+: rs') {k : Key}
    (hk : k ∈ r.keys) : k ∈ rs'.flatMap fun e => e.2.keys :=
  List.mem_flatMap.2 ⟨(now, r), hpre.subset (by simp), hk⟩

theorem Orderly.serve_write {form : Form} {i : Item} {o : WriteOptions} (h : Orderly d rs')
    (hpre : rs ++ [(now, .write form i o)] <+: rs') :
    (store.serve now (.write form i o) (store.run rs d)).1 = .ok () := by
  have hbefore := (List.prefix_append rs [_]).trans hpre
  have hio : Unhindered ((store.run rs d).write now i o.lifetime).1 := fun f hf =>
    h.unhindered hpre f (mem_faults_answered.2 hf)
  change (answered ((store.run rs d).write now i o.lifetime)).1 = _
  rw [(h.filed hbefore).write_eq (mem_keys_of_snoc hpre List.mem_cons_self) hio]
  rfl

theorem Orderly.serve_read {form : Form} {k : Key} {context : Context} (h : Orderly d rs')
    (hpre : rs ++ [(now, .read form k context)] <+: rs') :
    (store.serve now (.read form k context) (store.run rs d)).1 =
      (reading now (onFile rs k)).mapError .fault := by
  have hbefore := (List.prefix_append rs [_]).trans hpre
  have hio : Unhindered ((store.run rs d).read now k).1 := fun f hf =>
    h.unhindered hpre f (mem_faults_answered.2 hf)
  change (answered ((store.run rs d).read now k)).1 = _
  rw [(h.filed hbefore).read_eq (mem_keys_of_snoc hpre List.mem_cons_self)
    (fun w hw => (h.earlier hbefore).readsBack_onFile hw) hio]
  rfl

/-- The record and the envelope are two levels around a reply. -/
theorem nesting_le_deepest (w : Moment × Pending) :
    (Directory.filed w).value.nesting ≤ Envelope.deepest ↔
      ¬ 125 < w.2.item.entry.reply.nesting := by
  have hnesting : (Directory.filed w).value.nesting = w.2.item.entry.reply.nesting + 1 :=
    w.2.item.entry.nesting_toJson
  have hdeepest : Envelope.deepest = 126 := rfl
  rw [hnesting, hdeepest]
  omega

theorem isDue_iff (now : Moment) (w : Moment × Pending) : isDue now w = true ↔
    ¬ 125 < w.2.item.entry.reply.nesting ∧ isOver now w = true := by
  rw [isDue, Bool.and_eq_true, decide_eq_true_eq, nesting_le_deepest]

theorem reading_some (now : Moment) (w : Moment × Pending) :
    (reading now (some w)).mapError .fault =
      if 125 < w.2.item.entry.reply.nesting then Answered.fault isNoRecord
      else if isOver now w then .ok none
      else .ok (some w.2.item.entry.toJson) := by
  by_cases hdeep : 125 < w.2.item.entry.reply.nesting
  · rw [reading, if_neg fun hle => (nesting_le_deepest w).1 hle hdeep, if_pos hdeep]
    rfl
  · rw [reading, if_pos ((nesting_le_deepest w).2 hdeep), if_neg hdeep]
    split <;> rfl

/-- What a read is answered: the record that was last written under the key and not deleted since,
unless it has expired. A record around a reply that nests deeper than 125 levels is not read at
all, expired or not. -/
theorem answer_of_read {form : Form} {k : Key} {context : Context} (h : Orderly d rs')
    (hread : rs ++ [(now, .read form k context)] <+: rs') :
    (store.serve now (.read form k context) (store.run rs d)).1 =
      match rs.standing k with
      | none => .ok none
      | some w =>
        if 125 < w.2.item.entry.reply.nesting then Answered.fault isNoRecord
        else if isOver now w then .ok none
        else .ok (some w.2.item.entry.toJson) := by
  rw [h.serve_read hread]
  rcases onFile_cases rs k with heq | ⟨hnone, w, hw, e, he, hdue⟩
  · rw [heq]
    cases rs.standing k with
    | none => rfl
    | some w => exact reading_some now w
  · obtain ⟨hnesting, hover⟩ := (isDue_iff e.1 w).1 hdue
    -- It was removed by an earlier read, so it has still expired.
    obtain ⟨-, -, hclock⟩ := List.pairwise_append.1 (h.earlier hread).clock
    have hle := hclock e he (now, .read form k context) (List.mem_singleton.2 rfl)
    simp only [hnone, hw]
    rw [if_neg hnesting, if_pos (isOver_of_le hover hle)]
    rfl

def nested : Nat → Json
  | 0 => .null
  | n + 1 => .array [nested n]

theorem nesting_nested (n : Nat) : (nested n).nesting = n := by
  induction n with
  | zero => rfl
  | succ n ih => rw [nested, Json.nesting, Json.itemsNesting, Json.itemsNesting, ih, Nat.max_zero]

theorem readsBack_nested (n : Nat) : (nested n).ReadsBack := by
  induction n with
  | zero => trivial
  | succ n ih => exact ⟨ih, trivial⟩

def deepening : History :=
  [(⟨0, 0⟩, .write .async ⟨⟨"k"⟩, ⟨0, .string "hello"⟩⟩ { lifetime := Span.ofSeconds? 60 }),
    (⟨30, 0⟩, .read .async ⟨"k"⟩ {}),
    (⟨60, 0⟩, .read .blocking ⟨"k"⟩ {}),
    (⟨60, 0⟩, .write .blocking ⟨⟨"k"⟩, ⟨60, nested 126⟩⟩ {}),
    (⟨60, 0⟩, .read .blocking ⟨"k"⟩ {})]

theorem orderly_deepening : Orderly {} deepening where
  empty := rfl
  offers := by decide
  clock := by decide +kernel
  io := by
    have hclear : Clear [⟨"k"⟩] 5 {} :=
      ⟨rfl, rfl, by decide +kernel, by decide +kernel, nofun⟩
    exact hclear.faults (by decide)
  distinct := by
    have hkeys : ∀ k ∈ deepening.flatMap fun e => e.2.keys, k = ⟨"k"⟩ := by decide
    intro j hj k hk _
    rw [hkeys j hj, hkeys k hk]
  readsBack := by
    intro e he p hp
    simp only [deepening, List.mem_cons, List.not_mem_nil, or_false] at he
    rcases he with rfl | rfl | rfl | rfl | rfl
    · obtain rfl := List.mem_singleton.1 hp
      refine ⟨fun x hx => ?_, Entry.readsBack_toJson ?_ trivial⟩
      · obtain rfl := Option.some.inj hx
        exact ⟨by decide +kernel, Json.readsBack_ofFloat (by decide +kernel) (by decide +kernel)⟩
      · exact Json.readsBack_ofFloat (by decide +kernel) (by decide +kernel)
    · cases hp
    · cases hp
    · obtain rfl := List.mem_singleton.1 hp
      refine ⟨fun x hx => (nomatch hx), Entry.readsBack_toJson ?_ (readsBack_nested 126)⟩
      exact Json.readsBack_ofFloat (by decide +kernel) (by decide +kernel)
    · cases hp

theorem answer_of_read_deepening :
    (store.serve ⟨30, 0⟩ (.read .async ⟨"k"⟩ {}) (store.run (deepening.take 1) {})).1 =
        .ok (some (Entry.toJson ⟨0, .string "hello"⟩)) ∧
      (store.serve ⟨60, 0⟩ (.read .blocking ⟨"k"⟩ {}) (store.run (deepening.take 2) {})).1 =
        .ok none ∧
      (store.serve ⟨60, 0⟩ (.write .blocking ⟨⟨"k"⟩, ⟨60, nested 126⟩⟩ {})
        (store.run (deepening.take 3) {})).1 = .ok () ∧
      (store.serve ⟨60, 0⟩ (.read .blocking ⟨"k"⟩ {}) (store.run (deepening.take 4) {})).1 =
        Answered.fault isNoRecord := by
  refine ⟨?_, ?_, orderly_deepening.serve_write (by decide +kernel), ?_⟩
  · refine (answer_of_read orderly_deepening (by decide +kernel)).trans ?_
    decide +kernel
  · refine (answer_of_read orderly_deepening (by decide +kernel)).trans ?_
    decide +kernel
  · refine (answer_of_read orderly_deepening (by decide +kernel)).trans ?_
    have hdeep : 125 < (nested 126).nesting := by
      rw [nesting_nested]
      decide
    exact if_pos hdeep

end Directory

end ReplyCache
