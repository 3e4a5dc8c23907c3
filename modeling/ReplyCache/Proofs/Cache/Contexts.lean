import ReplyCache.Proofs.Cache.Sent
import ReplyCache.Store.Memory

namespace ReplyCache

namespace Operation

def call? : Operation → Option Call
  | .read _ call | .write _ call _ | .writeBatch _ call _ => some call
  | .flush | .ping | .delete _ | .disconnect | .setSpace _ | .setLifetime _ => none

def answered : Operation → List Call
  | .write _ call _ => [call]
  | .writeBatch _ call _ =>
    match call.inputs? with
    | some inputs => inputs.map call.withInput
    | none => [call]
  | .read .. | .flush | .ping | .delete _ | .disconnect | .setSpace _ | .setLifetime _ => []

end Operation

namespace Store

variable {σ : Type} {store : Store σ} {items : List Item} {options : WriteOptions} {r : Request}
  {e : Item × WriteOptions}

theorem options_of_writing (hr : r ∈ store.writing items options) (he : e ∈ r.entries) :
    e.2 = options := by
  have hone : ∀ form, r ∈ (items.map fun i => Request.write form i options) → e.2 = options := by
    intro form hr
    obtain ⟨i, -, rfl⟩ := List.mem_map.1 hr
    obtain rfl := List.mem_singleton.1 he
    rfl
  have hall : ∀ means, r ∈ [Request.writeAll means items options] → e.2 = options := by
    intro means hr
    obtain rfl := List.mem_singleton.1 hr
    obtain ⟨i, -, rfl⟩ := List.mem_map.1 he
    rfl
  simp only [Store.writing] at hr
  split at hr
  · cases hr
  · split at hr
    · exact hone _ hr
    · split at hr
      · exact hall _ hr
      · split at hr
        · exact hall _ hr
        · exact hone _ hr

end Store

namespace Cache

variable {σ : Type} {store : Store σ} {c : Cache σ} {now : Moment} {o : Operation} {r : Request}
  {e : Item × WriteOptions}

/-- Nothing that the operation hands over comes from the buffer. -/
def direct (c : Cache σ) (o : Operation) : Bool :=
  c.buffer.isNone || (o.writesReplies && !o.waits)

theorem options_of_write {form : Form} {call : Call} {reply : Json}
    (hdirect : form = .blocking ∨ c.buffer = none)
    (hr : r ∈ (c.writing store now form call reply).1) (he : e ∈ r.entries) :
    e.2 = c.writeOptions call := by
  simp only [writing] at hr
  split at hr
  · have hone : r = .write (Action.formFor store form) (c.itemOf now call reply)
        (c.writeOptions call) := by
      rcases hdirect with rfl | hb
      · exact List.mem_singleton.1 hr
      · rw [hb] at hr
        cases form <;> exact List.mem_singleton.1 hr
    rw [hone] at he
    obtain rfl := List.mem_singleton.1 he
    rfl
  · cases hr

theorem options_of_batch {form : Form} {call : Call} {replies : List Json}
    (hdirect : form = .blocking ∨ call.inputs?.isSome = true ∨ c.buffer = none)
    (hr : r ∈ (c.writingBatch store now form call replies).1) (he : e ∈ r.entries) :
    e.2 = c.writeOptions call := by
  simp only [writingBatch] at hr
  split at hr
  · cases hinputs : call.inputs? with
    | none =>
        rw [hinputs] at hr hdirect
        exact options_of_write (by simpa using hdirect) hr he
    | some inputs =>
        rw [hinputs] at hr
        dsimp only at hr
        split at hr
        · cases hr
        · cases form with
          | async => exact Store.options_of_writing hr he
          | blocking =>
              obtain ⟨i, -, rfl⟩ := List.mem_map.1 hr
              obtain rfl := List.mem_singleton.1 he
              rfl
  · cases hr

def Supplies (c : Cache σ) (now : Moment) (o : Operation) (e : Item × WriteOptions) : Prop :=
  ∃ call, o.call? = some call ∧ ⟨e.1, e.2.lifetime⟩ ∈ c.submitted now o ∧
    e.2.context = Context.ofCall call

theorem writes_of_entries {rs : List Request} (hr : r ∈ rs) (he : e ∈ r.entries) :
    ⟨e.1, e.2.lifetime⟩ ∈ rs.flatMap Request.writes := by
  refine List.mem_flatMap.2 ⟨r, hr, ?_⟩
  rw [Request.writes_eq]
  exact List.mem_map.2 ⟨e, he, rfl⟩

theorem supplies_of_direct (hdirect : c.direct o = true)
    (hr : r ∈ (c.requests store now o).1) (he : e ∈ r.entries) : c.Supplies now o e := by
  have hmem := writes_of_entries hr he
  cases ho : o.writesReplies with
  | false =>
      have hb : c.buffer = none := by simpa [direct, ho] using hdirect
      rcases mem_writes_requests store now o c hmem with hmem | hmem
      · rw [submitted_eq_nil ho] at hmem
        cases hmem
      · rw [held_of_none hb] at hmem
        cases hmem
  | true =>
      have hpast : o.waits = false ∨ c.buffer = none := by
        simpa [direct, ho, or_comm] using hdirect
      rw [(hands_requests ho hpast).writes] at hmem
      cases o with
      | write form call reply =>
          have hform : form = .blocking ∨ c.buffer = none := by
            cases form <;> simp_all [Operation.waits]
          exact ⟨call, rfl, hmem, by rw [options_of_write hform hr he]; rfl⟩
      | writeBatch form call replies =>
          have hform : form = .blocking ∨ call.inputs?.isSome = true ∨ c.buffer = none := by
            cases form <;> cases hinputs : call.inputs? <;> simp_all [Operation.waits]
          exact ⟨call, rfl, hmem, by rw [options_of_batch hform hr he]; rfl⟩
      | read | flush | ping | delete | disconnect | setSpace | setLifetime => cases ho

/-- Along a run, all that an operation hands over goes with the context of its own call, unless it
comes from the buffer. -/
theorem context_of_sent {os : List (Moment × Operation)} {i : Nat}
    (hr : (c.sent store os)[i]? = some r) :
    ∃ os₁ now o os₂, os = os₁ ++ (now, o) :: os₂ ∧ (c.sent store os₁).length ≤ i ∧
      i < (c.sent store (os₁ ++ [(now, o)])).length ∧
      ((c.run store os₁).direct o = true →
        ∀ e ∈ r.entries, (c.run store os₁).Supplies now o e) := by
  obtain ⟨os₁, now, o, os₂, hos, hle, hlt, hmem⟩ := sent_position hr
  exact ⟨os₁, now, o, os₂, hos, hle, hlt, fun hdirect e he => supplies_of_direct hdirect hmem he⟩

def batched : Call := Call.asking (.array [.string "a", .string "b"])

def batchedRun : List (Moment × Operation) :=
  [(⟨0, 0⟩, .write .async (Call.keyed "k") (.string "x")),
    (⟨1, 1⟩, .writeBatch .blocking batched [.string "y", .string "z"])]

theorem context_of_sent_batched :
    ∃ c : Cache Memory, Cache.new Memory.store {} (Memory.ofCapacity 10) = .ok c ∧
      let r := Request.write .blocking
        (c.itemOf ⟨1, 1⟩ (batched.withInput (.string "b")) (.string "z")) (c.writeOptions batched)
      (c.sent Memory.store batchedRun)[2]? = some r ∧
        ∃ os₁ now o os₂, batchedRun = os₁ ++ (now, o) :: os₂ ∧
          (c.sent Memory.store os₁).length ≤ 2 ∧
          2 < (c.sent Memory.store (os₁ ++ [(now, o)])).length ∧
          ((c.run Memory.store os₁).direct o = true →
            ∀ e ∈ r.entries, (c.run Memory.store os₁).Supplies now o e) := by
  let c : Cache Memory := { settings := {}, contents := Memory.ofCapacity 10, buffer := none }
  have hr : (c.sent Memory.store batchedRun)[2]? = some (.write .blocking
      (c.itemOf ⟨1, 1⟩ (batched.withInput (.string "b")) (.string "z"))
      (c.writeOptions batched)) := by
    decide +kernel
  exact ⟨c, rfl, hr, context_of_sent hr⟩

/-- The entries of a batch do not go with the contexts of the calls for their elements. -/
theorem not_context_of_element :
    ¬ ∀ (c : Cache Memory) (os : List (Moment × Operation)),
      Cache.new Memory.store {} (Memory.ofCapacity 10) = .ok c →
      ∀ r ∈ c.sent Memory.store os, ∀ e ∈ r.entries,
        ∃ x ∈ os, ∃ call ∈ x.2.answered, e.2.context = Context.ofCall call := by
  intro hall
  have h := hall _ batchedRun rfl
  revert h
  decide +kernel

end Cache

end ReplyCache
