import ReplyCache.Call.Basic
import ReplyCache.Proofs.Freshness
import ReplyCache.Proofs.Span

namespace ReplyCache

namespace Directives

def carried (d : Directives) : Directives :=
  { d with lifetime := d.lifetime.bind fun s => Span.ofSeconds? s.toSeconds }

theorem get?_ofList_names (d : Directives) :
    let members := Members.ofList <|
      (optInName, Json.bool d.optIn) ::
        (d.lifetime.toList.map fun s => (lifetimeName, Json.ofFloat s.toSeconds)) ++
        (d.maxAge.toList.map fun x => (maxAgeName, Json.ofFloat x))
    Members.get? optInName members = some (.bool d.optIn) ∧
      Members.get? lifetimeName members = d.lifetime.map (fun s => Json.ofFloat s.toSeconds) ∧
      Members.get? maxAgeName members = d.maxAge.map Json.ofFloat ∧
      Members.get? maxAgeOtherName members = none := by
  have hnames : [optInName, lifetimeName, maxAgeName, maxAgeOtherName].Nodup := by decide
  simp only [List.nodup_cons, List.mem_cons, not_or] at hnames
  obtain ⟨⟨h1, h2, h3, -⟩, ⟨h4, h5, -⟩, ⟨h6, -⟩, -⟩ := hnames
  rcases d with ⟨optIn, _ | s, _ | x⟩ <;>
    simp [Members.ofList, Members.get?_insert_of_ne, Members.get?, *, Ne.symm]

theorem ofJson_toJson {d : Directives} (hage : ∀ x ∈ d.maxAge, x.isFinite = true) :
    ofJson d.toJson = d.carried := by
  obtain ⟨hoptIn, hlifetime, hage', hother⟩ := get?_ofList_names d
  have hseconds : (d.lifetime.map fun s => Json.ofFloat s.toSeconds).bind Json.float? =
      d.lifetime.map Span.toSeconds := by
    cases d.lifetime with
    | none => rfl
    | some s => exact Json.float?_ofFloat s.rounded_toSeconds.finite
  have hmaxAge : (d.maxAge.map Json.ofFloat).bind Json.float? = d.maxAge := by
    cases h : d.maxAge with
    | none => rfl
    | some x => exact Json.float?_ofFloat (hage x h)
  simp only [toJson, Json.ofMembers, ofJson, ofMembers, hoptIn, hlifetime, hage', hother, hseconds,
    hmaxAge, carried]
  cases d.optIn <;> simp [Json.bool?, Option.bind_map]

theorem carried_eq_iff {d : Directives} :
    d.carried = d ↔ ∀ s ∈ d.lifetime, ∃ x, Span.ofSeconds? x = some s := by
  rcases d with ⟨optIn, _ | s, maxAge⟩
  · simp [carried]
  · simp [carried, Span.ofSeconds?_toSeconds_iff]

end Directives

namespace Call

/-- Directives come back from a call, but for a lifetime that no number of seconds denotes. Whole
seconds up to `2 ^ 53` have such a number, and so has every lifetime below `2 ^ 23` seconds. A
lifetime is lost only if it rounds to `2 ^ 64` seconds. -/
theorem directives_withDirectives (c : Call) {d : Directives}
    (hage : ∀ x ∈ d.maxAge, x.isFinite = true) :
    (c.withDirectives d).directives =
        { d with lifetime := d.lifetime.bind fun s => Span.ofSeconds? s.toSeconds } ∧
      ((c.withDirectives d).directives = d ↔
        ∀ s ∈ d.lifetime, ∃ x, Span.ofSeconds? x = some s) ∧
      ((∀ s ∈ d.lifetime, s.seconds < 2 ^ 23 ∨ s.seconds ≤ 2 ^ 53 ∧ s.fraction = 0) →
        (c.withDirectives d).directives = d) ∧
      ∀ s ∈ d.lifetime,
        ((c.withDirectives d).directives.lifetime = none ↔ 2 ^ 64 - 2 ^ 10 ≤ s.seconds) := by
  have hcarried : (c.withDirectives d).directives = d.carried := by
    have hget : (c.withDirectives d).get? directivesName = some d.toJson :=
      SortedMap.get?_insert_self c.params directivesName d.toJson
    rw [directives, hget]
    exact Directives.ofJson_toJson hage
  have hiff := hcarried ▸ Directives.carried_eq_iff (d := d)
  refine ⟨hcarried, hiff, fun hrange => ?_, fun s hs => ?_⟩
  · rw [hiff]
    intro s hs
    rcases hrange s hs with hlt | ⟨hle, hpart⟩
    · exact ⟨_, Span.ofSeconds?_toSeconds_of_lt hlt⟩
    · refine ⟨_, Span.ofSeconds?_toSeconds_of_whole hpart (hle.trans ?_)⟩
      norm_num [Binary.leadingBit]
  · rw [hcarried, ← Span.ofSeconds?_toSeconds_eq_none_iff, Directives.carried, Option.mem_def.1 hs]
    rfl

theorem directives_withDirectives_halfMinute :
    (∀ x ∈ some (10.5 : Float), x.isFinite = true) ∧
      (empty.withDirectives ⟨true, some ⟨30500000000, by decide⟩, some 10.5⟩).directives =
        ⟨true, some ⟨30500000000, by decide⟩, some 10.5⟩ := by
  have hage : ∀ x ∈ some (10.5 : Float), x.isFinite = true := by decide +kernel
  exact ⟨hage, (directives_withDirectives empty
    (d := ⟨true, some ⟨30500000000, by decide⟩, some 10.5⟩) hage).2.2.1 (by decide)⟩

/-- The longest lifetime is lost. -/
theorem not_directives_withDirectives_eq :
    ¬ ∀ (c : Call) (d : Directives), (∀ x ∈ d.maxAge, x.isFinite = true) →
      (c.withDirectives d).directives = d := by
  intro hall
  have hlongest := hall empty { lifetime := some ⟨18446744073709551615000000000, by decide⟩ }
    (by decide)
  revert hlongest
  decide +kernel

example :
    (empty.withDirectives { lifetime := some ⟨9007199254740993000000000, by decide⟩ }).directives =
      { lifetime := some ⟨9007199254740992000000000, by decide⟩ } := by
  decide +kernel

end Call

end ReplyCache
