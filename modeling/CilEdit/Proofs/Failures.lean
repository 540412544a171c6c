import CilEdit.Proofs.Edits

namespace CilEdit

namespace Edit

/-- What an edit answers if it succeeds. -/
inductive Answer
  | pushed (h : Handle)
  | replaced
  | removed
  | spliced (new : Spliced)

def run : Edit → Step Error Body Answer
  | .push i => do return .pushed (← Body.push i)
  | .replace h i => do
    Body.replace h i
    return .replaced
  | .remove h => do
    Body.remove h
    return .removed
  | .splice anchor s => do return .spliced (← Body.splice anchor s)

variable {b b' : Body} {error : Error}

/-- A call gives an answer, or it fails and the body is the same as before. -/
theorem run_cases (e : Edit) (b : Body) : (∃ answer, e.run b = (.ok answer, e.apply b)) ∨
    (∃ error, e.run b = (.error error, b)) ∧ e.apply b = b := by
  cases e with
  | push i =>
      rw [apply]
      rcases Body.push_cases i b with ⟨-, heq⟩ | ⟨error, -, heq⟩
      · exact .inl ⟨_, by rw [heq]; exact Step.bind_ok heq⟩
      · exact .inr ⟨⟨error, Step.bind_error heq⟩, by rw [heq]⟩
  | replace h i =>
      rw [apply]
      rcases Body.replace_cases h i b with ⟨old, -, -, heq⟩ | ⟨error, heq, -⟩
      · exact .inl ⟨_, by rw [heq]; exact Step.bind_ok heq⟩
      · exact .inr ⟨⟨error, Step.bind_error heq⟩, by rw [heq]⟩
  | remove h =>
      rw [apply]
      rcases Body.remove_cases h b with ⟨-, -, heq⟩ | ⟨-, error, heq⟩
      · exact .inl ⟨_, by rw [heq]; exact Step.bind_ok heq⟩
      · exact .inr ⟨⟨error, Step.bind_error heq⟩, by rw [heq]⟩
  | splice anchor s =>
      rw [apply]
      rcases Body.splice_cases anchor s b with ⟨position, instructions, -, -, -, heq⟩ | ⟨error, heq, -⟩
      · exact .inl ⟨_, by rw [heq]; exact Step.bind_ok heq⟩
      · exact .inr ⟨⟨error, Step.bind_error heq⟩, by rw [heq]⟩

theorem eq_of_run_error {e : Edit} (h : e.run b = (.error error, b')) : b' = b ∧ e.apply b = b := by
  rcases e.run_cases b with ⟨answer, heq⟩ | ⟨⟨error', heq⟩, hsame⟩
  · rw [heq] at h
    cases h
  · rw [heq] at h
    cases h
    exact ⟨rfl, hsame⟩

end Edit

namespace Body

/-- The answers of a run of calls, those of failed calls included. -/
def answers : Body → List Edit → List (Except Error Edit.Answer)
  | _, [] => []
  | b, e :: edits => (e.run b).1 :: answers (e.apply b) edits

/-- The calls of a run that succeed. -/
def effective : Body → List Edit → List Edit
  | _, [] => []
  | b, e :: edits =>
    if (e.run b).1.isOk then e :: effective (e.apply b) edits else effective (e.apply b) edits

theorem edited_cons (b : Body) (e : Edit) (edits : List Edit) :
    b.edited (e :: edits) = (e.apply b).edited edits := rfl

theorem run_effective (b : Body) (edits : List Edit) :
    b.edited (b.effective edits) = b.edited edits ∧
      b.answers (b.effective edits) = (b.answers edits).filter Except.isOk := by
  induction edits generalizing b with
  | nil => exact ⟨rfl, rfl⟩
  | cons e edits ih =>
      obtain ⟨hbody, hanswers⟩ := ih (e.apply b)
      rw [effective, answers]
      rcases e.run_cases b with ⟨answer, heq⟩ | ⟨⟨error, heq⟩, hsame⟩
      · have hok : (e.run b).1.isOk = true := by rw [heq]; rfl
        rw [if_pos hok, List.filter_cons_of_pos hok, answers, hanswers]
        exact ⟨hbody, rfl⟩
      · have hfailed : ¬(e.run b).1.isOk = true := by rw [heq]; exact Bool.false_ne_true
        rw [hsame] at hbody hanswers
        rw [if_neg hfailed, List.filter_cons_of_neg hfailed, edited_cons, hsame]
        exact ⟨hbody, hanswers⟩

/-- A call that fails leaves the body as it was, so whatever calls follow do and answer what they
would have without it; and a run of calls does and answers the same without all those that fail. -/
theorem failures_leave_no_trace (b : Body) (edits : List Edit) :
    (∀ (e : Edit) (error : Error) (b' : Body), e.run b = (.error error, b') → b' = b ∧
      b.edited (e :: edits) = b.edited edits ∧
      b.answers (e :: edits) = .error error :: b.answers edits) ∧
    b.edited (b.effective edits) = b.edited edits ∧
    b.answers (b.effective edits) = (b.answers edits).filter Except.isOk := by
  refine ⟨fun e error b' h => ?_, b.run_effective edits⟩
  obtain ⟨hbody, hsame⟩ := Edit.eq_of_run_error h
  refine ⟨hbody, ?_, ?_⟩
  · rw [edited_cons, hsame]
  · rw [answers, hsame, h]

end Body

end CilEdit
