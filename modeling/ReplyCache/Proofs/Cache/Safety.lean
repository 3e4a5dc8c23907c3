import ReplyCache.Proofs.Cache.Faults
import ReplyCache.Proofs.Cache.Ledger
import ReplyCache.Proofs.Cache.Reads
import ReplyCache.Proofs.Store.Clock

namespace ReplyCache

namespace Memory

variable {n : Nat} {own : Option Span}

def unavailable : String := "backend_unavailable"

/-- A memory that was never crashed answers, crashes, or stays as it is and says why. -/
theorem Intact.serve_cases {m : Memory} (h : Intact n own m) (now : Moment) (r : Request) :
    (∃ a m', Memory.serve now r m = (.ok a, m') ∧ Intact n own m') ∨
      (∃ m', Memory.serve now r m = (.error .crash, m')) ∨
      ∃ f, Memory.serve now r m = (.error (.fault f), m) ∧ f.kind ≠ unavailable := by
  by_cases hoffers : store.capabilities.offers r = true
  · by_cases hshows : ∀ p ∈ r.writes, Shows now.steady own p
    · exact .inl (h.serve hoffers hshows)
    · push Not at hshows
      obtain ⟨p, hp, hlate⟩ := hshows
      exact .inr (.inl (h.crash hoffers hp hlate))
  · cases r with
    | writeAll means items o =>
        cases means with
        | batch => exact (hoffers rfl).elim
        | pipeline =>
            exact .inr (.inr ⟨_, rfl, fun h : "unsupported" = _ => absurd h (by decide)⟩)
    | read form k context => exact (hoffers (by simp [Capabilities.offers, store])).elim
    | write form i o => exact (hoffers (by simp [Capabilities.offers, store])).elim
    | delete ks | ping | close => exact (hoffers rfl).elim

theorem sound (n : Nat) (own : Option Span) :
    store.Sound (Intact n own) fun f => f.kind ≠ unavailable where
  ok := by
    intro now r m m' a hm h
    change serve now r m = _ at h
    rcases hm.serve_cases now r with ⟨b, m₁, heq, hm₁⟩ | ⟨m₁, heq⟩ | ⟨f, heq, -⟩ <;> rw [heq] at h
    · exact (Prod.mk.inj h).2 ▸ hm₁
    · cases h
    · cases h
  fault := by
    intro now r m m' f hm h
    change serve now r m = _ at h
    rcases hm.serve_cases now r with ⟨b, m₁, heq, hm₁⟩ | ⟨m₁, heq⟩ | ⟨g, heq, hg⟩ <;> rw [heq] at h
    · cases h
    · cases h
    · obtain ⟨hfault, rfl⟩ := Prod.mk.inj h
      obtain rfl : g = f := by simpa using hfault
      exact ⟨hm, hg⟩

end Memory

namespace Cache

def handed {σ : Type} (store : Store σ) (c : Cache σ) (now : Moment) (o : Operation) :
    List Pending := (c.requests store now o).1.flatMap Request.writes

/-- The operation is answered, nothing is told of an unavailable memory, and a ping ahead of it
would find the memory alive. -/
structure Serves (c : Cache Memory) (now : Moment) (o : Operation) : Prop where
  answered : (c.step Memory.store now o).1.isOk = true
  available : ∀ e ∈ (c.step Memory.store now o).2.events, ∀ f, e.fault? = some f →
    f.kind ≠ Memory.unavailable
  alive : ∀ now', (c.step Memory.store now' .ping).1 = .ok (some true)

abbrev Healthy (n : Nat) (own : Option Span) (c : Cache Memory) : Prop :=
  c.Tells (Memory.Intact n own) fun f => f.kind ≠ Memory.unavailable

variable {n : Nat} {own : Option Span} {c : Cache Memory} {now : Moment} {o : Operation}

theorem step_ping (c : Cache Memory) (now : Moment) :
    (c.step Memory.store now .ping).1 = .ok (some !c.contents.unusable) := rfl

theorem Healthy.ping (h : c.Healthy n own) (now : Moment) :
    (c.step Memory.store now .ping).1 = .ok (some true) := by
  rw [step_ping, h.contents.usable]
  rfl

theorem Healthy.step (h : c.Healthy n own) (hok : (c.step Memory.store now o).1.isOk = true) :
    (c.step Memory.store now o).2.Healthy n own := by
  cases hstep : c.step Memory.store now o with
  | mk answer c' =>
      rw [hstep] at hok
      cases answer with
      | ok a =>
          have hdecode : ∀ f : Fault, f.kind = "decode" → f.kind ≠ Memory.unavailable := by
            intro f hf
            rw [hf]
            decide
          exact (Action.tells_perform (Memory.sound n own) hdecode o c a c' h hstep).1
      | error e => cases hok

theorem Healthy.serves_iff (h : c.Healthy n own) :
    Serves c now o ↔ ∀ p ∈ c.handed Memory.store now o, Memory.Shows now.steady own p := by
  have hoffers := offers_requests Memory.store now o c
  constructor
  · intro hserves
    have hok := hserves.answered
    rw [step_isOk] at hok
    exact h.contents.shows_of_serveAll hoffers hok
  · intro hshows
    have hok : (c.step Memory.store now o).1.isOk = true := by
      rw [step_isOk]
      exact (h.contents.serveAll hoffers hshows).1
    exact ⟨hok, (h.step hok).events, h.ping⟩

theorem healthy_of_new {settings : Settings}
    (hc : Cache.new Memory.store settings (Memory.ofCapacity n own) = .ok c) :
    c.Healthy (max n 1) own := by
  obtain ⟨-, hevents⟩ := past_of_new hc
  obtain ⟨-, -, hcontents, -⟩ := new_eq_ok hc
  refine ⟨hcontents ▸ Memory.intact_ofCapacity n own, ?_⟩
  rw [hevents]
  intro e he
  cases he

/-- All operations of a run are answered and the memory stays available, exactly if the clock can
show when the records expire that the memory is handed. -/
theorem serves_iff_shows {settings : Settings}
    (hc : Cache.new Memory.store settings (Memory.ofCapacity n own) = .ok c)
    (os : List (Moment × Operation)) :
    Along Memory.store Serves c os ↔
      Along Memory.store (fun c now o => ∀ p ∈ c.handed Memory.store now o,
        Memory.Shows now.steady own p) c os := by
  apply along_congr (I := fun c => c.Healthy (max n 1) own) _ os (healthy_of_new hc)
  intro c now o h
  exact ⟨h.serves_iff, fun hserves => h.step hserves.answered⟩

def everlasting : List (Moment × Operation) :=
  let long := Json.object [(Directives.lifetimeName, Json.ofInt 10000000000000000000)]
  [(⟨0, 0⟩, .write .async (Call.keyed "k") (.string "a")),
    (⟨1, 1⟩, .write .async ((Call.keyed "j").insert Call.directivesName long) (.string "b")),
    (⟨2, 2⟩, .flush)]

theorem serves_iff_shows_everlasting :
    ∃ c : Cache Memory,
      Cache.new Memory.store { flushSize := some 10 } (Memory.ofCapacity 10) = .ok c ∧
      (Along Memory.store Serves c everlasting ↔
        Along Memory.store (fun c now o => ∀ p ∈ c.handed Memory.store now o,
          Memory.Shows now.steady none p) c everlasting) := by
  have hc : Cache.new Memory.store { flushSize := some 10 } (Memory.ofCapacity 10) = .ok _ := rfl
  exact ⟨_, hc, serves_iff_shows hc everlasting⟩

example (c : Cache Memory)
    (h : Cache.new Memory.store { flushSize := some 10 } (Memory.ofCapacity 10) = .ok c) :
    ((c.run Memory.store (everlasting.take 2)).step Memory.store ⟨2, 2⟩ .flush).1 = .error .crash ∧
      ((c.run Memory.store everlasting).step Memory.store ⟨3, 3⟩ .ping).1 = .ok (some false) := by
  obtain rfl := Except.ok.inj h
  decide +kernel

theorem shows_handed {horizon : Nat} {os : List (Moment × Operation)}
    (htimes : ∀ x ∈ os, x.1.steady ≤ horizon) (hheld : ∀ p ∈ c.held, Memory.Shows horizon own p)
    (hshows : Along Memory.store
      (fun c now o => ∀ p ∈ c.submitted now o, Memory.Shows horizon own p) c os) :
    Along Memory.store (fun c now o => ∀ p ∈ c.handed Memory.store now o,
      Memory.Shows now.steady own p) c os := by
  induction os generalizing c with
  | nil => exact along_nil c
  | cons x os ih =>
      obtain ⟨now, o⟩ := x
      obtain ⟨hnow, htimes'⟩ := List.forall_mem_cons.1 htimes
      obtain ⟨hsubmitted, hshows'⟩ := along_cons.1 hshows
      have hlet : ∀ p, p ∈ c.submitted now o ∨ p ∈ c.held → Memory.Shows horizon own p :=
        fun p hp => hp.elim (hsubmitted p) (hheld p)
      refine along_cons.2 ⟨fun p hp => ?_, ih htimes' (fun p hp => ?_) hshows'⟩
      · exact (hlet p (mem_writes_requests Memory.store now o c hp)).of_le hnow
      · exact hlet p (mem_held_step Memory.store now o c hp)

theorem serves_of_submitted {settings : Settings}
    (hc : Cache.new Memory.store settings (Memory.ofCapacity n own) = .ok c) {horizon : Nat}
    {os : List (Moment × Operation)} (htimes : ∀ x ∈ os, x.1.steady ≤ horizon)
    (hshows : Along Memory.store
      (fun c now o => ∀ p ∈ c.submitted now o, Memory.Shows horizon own p) c os) :
    Along Memory.store Serves c os := by
  refine (serves_iff_shows hc os).2 (shows_handed htimes ?_ hshows)
  rw [held_of_new hc]
  intro p hp
  cases hp

theorem contents_of_unusable (h : c.contents.unusable = true) (os : List (Moment × Operation)) :
    (c.run Memory.store os).contents = c.contents := by
  induction os generalizing c with
  | nil => rfl
  | cons x os ih =>
      have hstep : (c.step Memory.store x.1 x.2).2.contents = c.contents := by
        rw [step_contents]
        exact Memory.serveAll_of_unusable h _ _
      rw [run_cons, ih (by rw [hstep]; exact h), hstep]

/-- Once the memory is unusable every read fails and every ping says so, whatever was done since. -/
theorem failed_of_unusable (h : c.contents.unusable = true) (os : List (Moment × Operation))
    (now : Moment) :
    let after := c.run Memory.store os
    (after.step Memory.store now .ping).1 = .ok (some false) ∧
      ∀ form call, after.admits call = true →
        (after.step Memory.store now (.read form call)).1 = .ok .miss ∧
        (after.step Memory.store now (.read form call)).2.events =
          after.events ++ [.readFailed (after.key call).text Memory.poisoned] := by
  intro after
  have hunusable : after.contents.unusable = true := by
    rw [contents_of_unusable h os]
    exact h
  constructor
  · rw [step_ping, hunusable]
    rfl
  · intro form call hadmits
    have hserve : Memory.store.serve now (.read (Action.formFor Memory.store form)
        (after.key call) (Context.ofCall call)) after.contents =
          (.error (.fault Memory.poisoned), after.contents) := by
      change after.contents.readNow now _ = _
      exact Memory.usable_of_unusable hunusable _
    exact read_failed hadmits hserve

end Cache

end ReplyCache
