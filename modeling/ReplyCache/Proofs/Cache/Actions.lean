import ReplyCache.Cache.Operation

namespace ReplyCache

namespace Store

variable {σ : Type}

/-- Makes requests one after the other, up to a crash. Beside the contents it tells whether there
was none. -/
def serveAll (store : Store σ) (now : Moment) : List Request → σ → Bool × σ
  | [], s => (true, s)
  | r :: rs, s =>
    match store.serve now r s with
    | (.error .crash, s') => (false, s')
    | (_, s') => store.serveAll now rs s'

theorem serveAll_append (store : Store σ) (now : Moment) (rs rs' : List Request) (s : σ) :
    store.serveAll now (rs ++ rs') s =
      if (store.serveAll now rs s).1 then store.serveAll now rs' (store.serveAll now rs s).2
      else store.serveAll now rs s := by
  induction rs generalizing s with
  | nil => rfl
  | cons r rs ih =>
      rw [List.cons_append, serveAll, serveAll]
      obtain ⟨answer, s'⟩ := store.serve now r s
      cases answer with
      | ok a => exact ih s'
      | error f =>
          cases f with
          | fault f => exact ih s'
          | crash => rfl

theorem serveAll_singleton (store : Store σ) (now : Moment) (r : Request) (s : σ) :
    (store.serveAll now [r] s).2 = (store.serve now r s).2 := by
  rw [serveAll]
  obtain ⟨answer, s'⟩ := store.serve now r s
  cases answer with
  | ok a => rfl
  | error f => cases f <;> rfl

end Store

namespace Action

variable {σ α β : Type} {store : Store σ} {now : Moment}

def result (act : Action σ α) (c : Cache σ) : Except Crash α × Cache σ := act.run.run c

@[simp] theorem result_pure (a : α) (c : Cache σ) : result (pure a) c = (.ok a, c) := rfl

theorem result_bind (act : Action σ α) (f : α → Action σ β) (c : Cache σ) :
    result (act >>= f) c =
      match result act c with
      | (.ok a, c') => result (f a) c'
      | (.error e, c') => (.error e, c') := by
  simp only [result]
  rw [ExceptT.run_bind, StateT.run_bind]
  obtain ⟨answer, c'⟩ := act.run.run c
  cases answer <;> rfl

@[simp] theorem result_get (c : Cache σ) : result get c = (.ok c, c) := rfl

@[simp] theorem result_set (c c' : Cache σ) : result (set c') c = (.ok ⟨⟩, c') := rfl

@[simp] theorem result_modify (f : Cache σ → Cache σ) (c : Cache σ) :
    result (modify f) c = (.ok ⟨⟩, f c) := rfl

/-- From a cache, an action makes these requests and leaves this buffer. -/
structure Does (store : Store σ) (now : Moment) (act : Action σ α) (c : Cache σ)
    (rs : List Request) (b : Option (Buffer Pending)) : Prop where
  contents : (result act c).2.contents = (store.serveAll now rs c.contents).2
  survives : (result act c).1.isOk = (store.serveAll now rs c.contents).1
  buffer : (result act c).2.buffer = b
  settings : (result act c).2.settings = c.settings

namespace Does

variable {act : Action σ α} {c : Cache σ} {rs rs' : List Request} {b b' : Option (Buffer Pending)}

theorem of_result {a : α} {c' : Cache σ} (h : result act c = (.ok a, c'))
    (hcontents : c'.contents = c.contents) (hbuffer : c'.buffer = b)
    (hsettings : c'.settings = c.settings) : Does store now act c [] b := by
  constructor
  · rw [h]
    exact hcontents
  · rw [h]
    rfl
  · rw [h]
    exact hbuffer
  · rw [h]
    exact hsettings

theorem pure (a : α) (c : Cache σ) : Does store now (Pure.pure a) c [] c.buffer :=
  of_result (result_pure a c) rfl rfl rfl

theorem answers (h : Does store now act c [] b) : ∃ a c', result act c = (.ok a, c') := by
  have hok := h.survives
  cases hr : result act c with
  | mk answer c' =>
      cases answer with
      | ok a => exact ⟨a, c', rfl⟩
      | error e =>
          rw [hr] at hok
          cases hok

theorem bind_result {f : α → Action σ β} {a : α} {c' : Cache σ} (h : result act c = (.ok a, c'))
    (hcontents : c'.contents = c.contents) (hsettings : c'.settings = c.settings)
    (hf : Does store now (f a) c' rs b) : Does store now (act >>= f) c rs b := by
  have hbind : result (act >>= f) c = result (f a) c' := by
    rw [result_bind, h]
  constructor
  · rw [hbind, hf.contents, hcontents]
  · rw [hbind, hf.survives, hcontents]
  · rw [hbind, hf.buffer]
  · rw [hbind, hf.settings, hsettings]

theorem bind_of_quiet {f : α → Action σ β} (h : Does store now act c [] b)
    (hf : ∀ a c', result act c = (.ok a, c') → Does store now (f a) c' rs b') :
    Does store now (act >>= f) c rs b' := by
  obtain ⟨a, c', hr⟩ := h.answers
  have hcontents := h.contents
  have hsettings := h.settings
  rw [hr] at hcontents hsettings
  exact bind_result hr hcontents hsettings (hf a c' hr)

/-- What is done first leaves the buffer that is left in the end, should the store crash. -/
theorem bind {f : α → Action σ β} (h : Does store now act c rs b)
    (hf : ∀ a c', result act c = (.ok a, c') → Does store now (f a) c' rs' b) :
    Does store now (act >>= f) c (rs ++ rs') b := by
  obtain ⟨hcontents, hsurvives, hbuffer, hsettings⟩ := h
  cases hr : result act c with
  | mk answer c' =>
      rw [hr] at hcontents hsurvives hbuffer hsettings
      cases answer with
      | ok a =>
          have hrest := hf a c' hr
          have hbind : result (act >>= f) c = result (f a) c' := by
            rw [result_bind, hr]
          have hserve : store.serveAll now (rs ++ rs') c.contents =
              store.serveAll now rs' c'.contents := by
            rw [Store.serveAll_append, ← hsurvives, hcontents]
            rfl
          constructor
          · rw [hbind, hserve, hrest.contents]
          · rw [hbind, hserve, hrest.survives]
          · rw [hbind, hrest.buffer]
          · rw [hbind, hrest.settings, hsettings]
      | error e =>
          have hbind : result (act >>= f) c = (.error e, c') := by
            rw [result_bind, hr]
          have hserve : store.serveAll now (rs ++ rs') c.contents =
              store.serveAll now rs c.contents := by
            rw [Store.serveAll_append, ← hsurvives]
            rfl
          constructor
          · rw [hbind, hserve, ← hcontents]
          · rw [hbind, hserve, ← hsurvives]
            rfl
          · rw [hbind, ← hbuffer]
          · rw [hbind, ← hsettings]

theorem buffer_after {a : α} {c' : Cache σ} (h : Does store now act c rs b)
    (hr : result act c = (.ok a, c')) : c'.buffer = b := by
  rw [← h.buffer, hr]

theorem bind_quiet {f : α → Action σ β} (h : Does store now act c rs b)
    (hf : ∀ a c', Does store now (f a) c' [] c'.buffer) : Does store now (act >>= f) c rs b := by
  rw [← List.append_nil rs]
  apply h.bind
  intro a c' hr
  rw [← h.buffer_after hr]
  exact hf a c'

end Does

theorem does_mapM {f : α → Action σ β} {asked : α → List Request}
    (hf : ∀ a c, Does store now (f a) c (asked a) c.buffer) (as : List α) (c : Cache σ) :
    Does store now (as.mapM f) c (as.flatMap asked) c.buffer := by
  induction as generalizing c with
  | nil => exact Does.pure _ c
  | cons a as ih =>
      rw [List.mapM_cons, List.flatMap_cons]
      apply (hf a c).bind
      intro b c' hr
      rw [← (hf a c).buffer_after hr]
      exact (ih c').bind_quiet fun bs c'' => Does.pure _ c''

theorem does_forM {f : α → Action σ PUnit} (hf : ∀ a c, Does store now (f a) c [] c.buffer)
    (as : List α) (c : Cache σ) : Does store now (as.forM f) c [] c.buffer := by
  induction as generalizing c with
  | nil => exact Does.pure _ c
  | cons a as ih =>
      apply (hf a c).bind_of_quiet
      intro u c' hr
      rw [← (hf a c).buffer_after hr]
      exact ih c'

theorem result_ask (store : Store σ) (now : Moment) (r : Request) (c : Cache σ) :
    result (ask store now r) c =
      match store.serve now r c.contents with
      | (.ok a, s) => (.ok (.ok a), { c with contents := s })
      | (.error (.fault f), s) => (.ok (.error f), { c with contents := s })
      | (.error .crash, s) => (.error .crash, { c with contents := s }) := by
  cases hserve : store.serve now r c.contents with
  | mk answer s =>
      simp only [ask, result_bind, result_get, hserve, result_set]
      cases answer with
      | ok a => rfl
      | error f => cases f <;> rfl

theorem does_ask (r : Request) (c : Cache σ) : Does store now (ask store now r) c [r] c.buffer := by
  have hask := result_ask store now r c
  cases hserve : store.serve now r c.contents with
  | mk answer s =>
      rw [hserve] at hask
      cases answer with
      | ok a => constructor <;> simp [hask, hserve, Store.serveAll, Except.isOk, Except.toBool]
      | error f =>
          cases f <;> constructor <;>
            simp [hask, hserve, Store.serveAll, Except.isOk, Except.toBool]

theorem result_gate (call : Call) (c : Cache σ) :
    ∃ c', result (gate call) c = (.ok (c.admits call), c') ∧ c'.contents = c.contents ∧
      c'.settings = c.settings ∧ c'.buffer = c.buffer := by
  simp only [gate]
  rw [result_bind, result_get]
  dsimp only
  cases hadmits : c.admits call with
  | true => exact ⟨c, rfl, rfl, rfl, rfl⟩
  | false => exact ⟨_, rfl, rfl, rfl, rfl⟩

theorem result_fits (reply : Json) (c : Cache σ) :
    ∃ c', result (fits reply) c = (.ok (decide (reply.textSize ≤ c.settings.largest)), c') ∧
      c'.contents = c.contents ∧ c'.settings = c.settings ∧ c'.buffer = c.buffer := by
  simp only [fits]
  rw [result_bind, result_get]
  dsimp only
  by_cases hsize : c.settings.largest < reply.textSize
  · rw [if_pos hsize, decide_eq_false (Nat.not_le.2 hsize)]
    exact ⟨_, rfl, rfl, rfl, rfl⟩
  · rw [if_neg hsize, decide_eq_true (Nat.not_lt.1 hsize)]
    exact ⟨c, rfl, rfl, rfl, rfl⟩

end Action

end ReplyCache
