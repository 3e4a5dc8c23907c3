import ReplyCache.Proofs.Cache.Ledger
import ReplyCache.Proofs.Cache.Reads
import ReplyCache.Proofs.Decimal.Order
import ReplyCache.Proofs.Key.Isolation
import ReplyCache.Store.Memory

namespace ReplyCache

namespace Freshness

variable {m m' : Option Float}

/-- The first bound on the age leaves no more room than the second. -/
def Tighter : Option Float → Option Float → Prop
  | _, none => True
  | some most, some most' => most ≤ most'
  | none, some _ => False

instance : (m m' : Option Float) → Decidable (Tighter m m')
  | _, none => .isTrue trivial
  | some most, some most' => inferInstanceAs (Decidable (most ≤ most'))
  | none, some _ => .isFalse id

theorem Tighter.isTooOld (h : Tighter m m') {age : Float} (hold : isTooOld m' age = true) :
    isTooOld m age = true := by
  cases m' with
  | none => cases hold
  | some most' =>
      cases m with
      | none => exact h.elim
      | some most => exact decide_eq_true (Decimal.lt_of_le_of_lt h (of_decide_eq_true hold))

/-- What cannot be decoded is told apart before and after the age is looked at, and alike for every
bound that the age does not exceed. -/
theorem ofRecord_eq_or_stale (h : Tighter m m') (members : List (String × Json)) (now : Float) :
    ofRecord members m' now = ofRecord members m now ∨
      ∃ age, isTooOld m age = true ∧ ofRecord members m now = .ok (stale age) := by
  simp only [ofRecord]
  cases Members.get? Entry.timestampName members with
  | none => exact .inl rfl
  | some timestamp =>
      dsimp only
      cases timestamp.float? with
      | none => exact .inl rfl
      | some written =>
          dsimp only
          cases hold : isTooOld m (now - written) with
          | true => exact .inr ⟨now - written, hold, rfl⟩
          | false =>
              have hyoung : isTooOld m' (now - written) = false :=
                Bool.eq_false_iff.2 fun hold' => Bool.eq_false_iff.1 hold (h.isTooOld hold')
              exact .inl (by rw [hyoung])

theorem judge_eq_or_stale (h : Tighter m m') (stored : Json) (now : Float) :
    judge stored m' now = judge stored m now ∨
      ∃ age, isTooOld m age = true ∧ judge stored m now = .ok (stale age) := by
  simp only [judge]
  cases Stored.read stored with
  | error f => exact .inl rfl
  | ok v =>
      cases v with
      | object members => exact ofRecord_eq_or_stale h members now
      | null | bool | number | string | array => exact .inl rfl

end Freshness

namespace Call

variable {a b : Call}

/-- Calls that differ at most in the age of the replies they accept, of which the first accepts
none that is too old for the second. -/
structure Loosens (a b : Call) : Prop where
  params : ∀ n, n ≠ directivesName → a.get? n = b.get? n
  optIn : a.directives.optIn = b.directives.optIn
  maxAge : Freshness.Tighter a.directives.maxAge b.directives.maxAge

namespace Loosens

theorem reissued (h : a.Loosens b) : a.Reissued b := by
  have hmetadata : ∀ field, a.metadataField? field = b.metadataField? field := by
    intro field
    rw [metadataField?, metadata?, h.params _ (by decide)]
    rfl
  have hruntime : ∀ field, a.runtimeField? field = b.runtimeField? field := by
    intro field
    rw [runtimeField?, runtime?_congr (h.params _ (by decide))]
    rfl
  exact {
    params := fun n hn => h.params n fun heq => hn (heq ▸ by decide)
    metadata := fun field _ => hmetadata field
    runtime := hruntime _
    nested := fun field _ => by rw [nestedField?, hruntime]; rfl
    ownKey := h.params _ (by decide)
    presetKey := hruntime _
    namespaces := fun field _ => hmetadata field }

theorem key_eq (h : a.Loosens b) (s : Scheme) : s.key a = s.key b :=
  (h.reissued.alike s).key_eq h.reissued.ownKey?_eq (h.reissued.spaceOf_eq s)

theorem admits_eq (h : a.Loosens b) (p : Policy) : p.admits a = p.admits b := by
  have htask : a.task? = b.task? := by
    rw [task?, h.params _ (by decide)]
    rfl
  rw [Policy.admits, Policy.admitsTask, htask, h.optIn]
  rfl

theorem context_eq (h : a.Loosens b) : Context.ofCall a = Context.ofCall b := by
  have hgiven : ∀ n, n ≠ directivesName → a.given? n = b.given? n :=
    fun n hn => Steered.given?_congr (h.params n hn)
  simp only [Context.ofCall, Context.promptNames, List.findSome?_cons]
  rw [h.params _ (by decide), hgiven _ (by decide), hgiven _ (by decide), hgiven _ (by decide)]
  rfl

end Loosens

end Call

namespace Cache

variable {σ : Type} {store : Store σ} {now : Moment} {c : Cache σ} {a b : Call}

theorem finishRead_eq_or_stale (h : a.Loosens b) (key : Key) (answer : Except Fault (Option Json))
    (c : Cache σ) :
    Action.result (Action.finishRead now b key answer) c =
        Action.result (Action.finishRead now a key answer) c ∨
      ∃ age, Freshness.isTooOld a.directives.maxAge age = true ∧
        (Action.result (Action.finishRead now a key answer) c).1 = .ok .miss ∧
        (Action.result (Action.finishRead now a key answer) c).2.events =
          c.events ++ [.stale key.text age] := by
  simp only [Action.finishRead]
  cases answer with
  | error f => exact .inl rfl
  | ok found =>
      cases found with
      | none => exact .inl rfl
      | some stored =>
          dsimp only
          rcases Freshness.judge_eq_or_stale h.maxAge stored now.wall with heq | ⟨age, hold, hstale⟩
          · exact .inl (by rw [heq])
          · rw [hstale]
            exact .inr ⟨age, hold, rfl, rfl⟩

theorem read_eq_or_stale (h : a.Loosens b) (store : Store σ) (now : Moment) (form : Form)
    (c : Cache σ) :
    Action.result (Action.read store now form b) c =
        Action.result (Action.read store now form a) c ∨
      ∃ age, Freshness.isTooOld a.directives.maxAge age = true ∧
        (Action.result (Action.read store now form a) c).1 = .ok .miss ∧
        (Action.result (Action.read store now form a) c).2.events =
          c.events ++ [.stale (c.key a).text age] := by
  have hadmits : c.admits b = c.admits a := (h.admits_eq c.settings.policy).symm
  have hkey : c.key b = c.key a := (h.key_eq c.scheme).symm
  cases ha : c.admits a with
  | false =>
      have hb : c.admits b = false := hadmits.trans ha
      left
      simp only [Action.read, Action.result_bind, Action.result_gate_of_denied ha,
        Action.result_gate_of_denied hb, Bool.false_eq_true, if_false]
  | true =>
      rw [Action.result_read ha, Action.result_read (hadmits.trans ha), hkey, ← h.context_eq]
      cases store.serve now (.read (Action.formFor store form) (c.key a) (Context.ofCall a))
          c.contents with
      | mk answer s =>
          cases answer with
          | ok found =>
              exact finishRead_eq_or_stale h (c.key a) (.ok found) { c with contents := s }
          | error x =>
              cases x with
              | fault f => exact .inl rfl
              | crash => exact .inl rfl

/-- Whatever the state of the cache and its store, a call that accepts older replies has the same
key and passes the same policy. It hits wherever the stricter call does, with the same reply, and
where that fails to decode what is stored, or the store fails it, it fails with the same fault. -/
theorem hit_of_looser (h : a.Loosens b) (store : Store σ) (now : Moment) (form : Form)
    (c : Cache σ) :
    c.key a = c.key b ∧ c.admits a = c.admits b ∧
      let strict := c.step store now (.read form a)
      let loose := c.step store now (.read form b)
      (∀ reply, strict.1 = .ok (.hit reply) → loose.1 = .ok (.hit reply)) ∧
        ∀ f, strict.1 = .ok .miss →
          strict.2.events = c.events ++ [.readFailed (c.key a).text f] →
          loose.1 = .ok .miss ∧ loose.2.events = c.events ++ [.readFailed (c.key b).text f] := by
  have hkey : c.key a = c.key b := h.key_eq c.scheme
  have hread := read_eq_or_stale h store now form c
  refine ⟨hkey, h.admits_eq c.settings.policy, ?_, ?_⟩
  · intro reply hhit
    rcases hread with heq | ⟨age, -, hmiss, -⟩
    · exact (congrArg Prod.fst heq).trans hhit
    · cases hmiss.symm.trans hhit
  · intro f hmiss hevents
    rcases hread with heq | ⟨age, -, -, hstale⟩
    · rw [← hkey]
      exact ⟨(congrArg Prod.fst heq).trans hmiss, (congrArg (·.2.events) heq).trans hevents⟩
    · have hsame := List.append_cancel_left (hstale.symm.trans hevents)
      cases (List.cons.inj hsame).1

def directed (members : List (String × Json)) : Call :=
  (Call.keyed "k").insert Call.directivesName (.object members)

theorem loosens_directed {ms ms' : List (String × Json)}
    (hoptIn : (directed ms).directives.optIn = (directed ms').directives.optIn)
    (hage : Freshness.Tighter (directed ms).directives.maxAge (directed ms').directives.maxAge) :
    (directed ms).Loosens (directed ms') := by
  refine ⟨fun n hn => ?_, hoptIn, hage⟩
  exact (SortedMap.get?_insert_of_ne _ hn _).trans (SortedMap.get?_insert_of_ne _ hn _).symm

theorem hit_of_looser_respelled :
    let wrote := fun reply => ((⟨{}, Memory.ofCapacity 2, none, {}, []⟩ : Cache Memory).step
      Memory.store ⟨0, 0⟩ (.write .blocking (Call.keyed "k") reply)).2
    let strict := directed [(Directives.maxAgeName, Json.ofInt 60)]
    let loose := directed [(Directives.maxAgeOtherName, Json.ofInt 100),
      (Directives.maxAgeName, Json.ofInt 1)]
    strict.Loosens loose ∧
      ((wrote (.string "v")).step Memory.store ⟨50, 50⟩ (.read .async loose)).1 =
        .ok (.hit (.string "v")) ∧
      ((wrote .null).step Memory.store ⟨50, 50⟩ (.read .async loose)).1 = .ok .miss ∧
      ((wrote (.string "v")).step Memory.store ⟨80, 80⟩ (.read .async strict)).1 = .ok .miss := by
  intro wrote strict loose
  have hlooser : strict.Loosens loose := loosens_directed (by decide +kernel) (by decide +kernel)
  have hfound := hit_of_looser hlooser Memory.store ⟨50, 50⟩ .async (wrote (.string "v"))
  have hnone := hit_of_looser hlooser Memory.store ⟨50, 50⟩ .async (wrote .null)
  exact ⟨hlooser, hfound.2.2.1 _ (by decide +kernel),
    (hnone.2.2.2 Freshness.noReply (by decide +kernel) (by decide +kernel)).1, by decide +kernel⟩

end Cache

end ReplyCache
