import Mathlib.Data.List.Basic

/-!
# Who asks and who answers

An inquiry asks questions one after another, and an answer decides what is asked next. It can be
answered by a function, or by an answerer that keeps a state from one question to the next: a cache, a
window, a connection. An answerer that gives the answers of a function in every state of an invariant
cannot be told from this function, whoever asks.
-/

namespace Foundation

variable {ρ α β γ σ : Type}

/-- Someone who asks: the result, or a question and what is done with its answer. -/
inductive Inquiry (ρ α β : Type)
  | done (result : β)
  | ask (question : ρ) (rest : α → Inquiry ρ α β)

namespace Inquiry

/-- One inquiry after another. -/
def bind : Inquiry ρ α β → (β → Inquiry ρ α γ) → Inquiry ρ α γ
  | done result, f => f result
  | ask question rest, f => ask question fun a ↦ (rest a).bind f

/-- One question. -/
def once (question : ρ) : Inquiry ρ α α := ask question done

/-- The answers of a function. -/
def answer (f : ρ → α) : Inquiry ρ α β → β
  | done result => result
  | ask question rest => (rest (f question)).answer f

/-- The answers of a state. -/
def serve (step : σ → ρ → α × σ) (s : σ) : Inquiry ρ α β → β
  | done result => result
  | ask question rest => (rest (step s question).1).serve step (step s question).2

/-- The questions of a list, and their answers. -/
def each : List ρ → Inquiry ρ α (List α)
  | [] => done []
  | question :: rest => ask question fun a ↦ (each rest).bind fun l ↦ done (a :: l)

/-- Whatever the answers are, every question is of one kind and the result is of another. -/
def Within (P : ρ → Prop) (Q : β → Prop) : Inquiry ρ α β → Prop
  | done result => Q result
  | ask question rest => P question ∧ ∀ a, (rest a).Within P Q

variable {f : ρ → α}

@[simp]
theorem answer_done (result : β) : (done result).answer f = result := rfl

@[simp]
theorem answer_bind (i : Inquiry ρ α β) (g : β → Inquiry ρ α γ) :
    (i.bind g).answer f = (g (i.answer f)).answer f := by
  induction i with
  | done result => rfl
  | ask question rest ih => exact ih (f question)

theorem answer_each (questions : List ρ) : (each questions).answer f = questions.map f := by
  induction questions with
  | nil => rfl
  | cons question rest ih =>
    have hnext : (each (question :: rest)).answer f =
        ((each rest).bind fun l ↦ done (f question :: l)).answer f := rfl
    rw [hnext, answer_bind, answer_done, ih, List.map_cons]

theorem Within.bind {P : ρ → Prop} {Q : β → Prop} {R : γ → Prop} {i : Inquiry ρ α β} {g : β → Inquiry ρ α γ}
    (hi : i.Within P Q) (hg : ∀ result, Q result → (g result).Within P R) : (i.bind g).Within P R := by
  induction i with
  | done result => exact hg result hi
  | ask question rest ih => exact ⟨hi.1, fun a ↦ ih a (hi.2 a)⟩

theorem within_true (i : Inquiry ρ α β) : i.Within (fun _ ↦ True) fun _ ↦ True := by
  induction i with
  | done result => trivial
  | ask question rest ih => exact ⟨trivial, ih⟩

/-- An answerer that answers questions of a kind as a function does, from every state of an invariant to
the next. -/
theorem serve_eq_answer {step : σ → ρ → α × σ} {P : ρ → Prop} {Q : β → Prop} {I : σ → Prop}
    (hstep : ∀ s question, I s → P question → (step s question).1 = f question ∧ I (step s question).2)
    {i : Inquiry ρ α β} (hi : i.Within P Q) {s : σ} (hs : I s) : i.serve step s = i.answer f := by
  induction i generalizing s with
  | done result => rfl
  | ask question rest ih =>
    obtain ⟨hanswer, hnext⟩ := hstep s question hs hi.1
    calc (ask question rest).serve step s
        = (rest (step s question).1).serve step (step s question).2 := rfl
      _ = (rest (f question)).serve step (step s question).2 := by rw [hanswer]
      _ = (rest (f question)).answer f := ih (f question) (hi.2 (f question)) hnext

end Inquiry

end Foundation
