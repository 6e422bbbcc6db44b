import LeastSquares.Proofs.Solver.Success

/-!
# The loop as a relation

A `Trace` is a run of the loop between two iterates: the records that the passes leave, a note for
each of them, and the reason for their end.  What a note tells of its pass is a parameter, so that
one relation serves for everything that is to be known of a run: the moves of a pure problem, the
decisions about the steps, the calls that were made, the lines of the log.

`Notes` are the rules that such a telling has to keep, two for the two kinds of a pass.
`Notes.exists_trace` is the induction on the budget, and `Notes.trace_of_solved` says it of a whole
solve; the lemmas of `Trace` read the states of the outcome off it, by induction on the passes.
-/

namespace LeastSquares
variable {σ α ν : Type}

/-! ## the states of a run -/

def Outcome.final (o : Outcome α) : Snapshot α :=
  ⟨o.history.size, o.solution, o.residualNorm, o.damping⟩

/-- the state at the start of pass `k`; behind the last pass it is the returned one -/
def Outcome.state (o : Outcome α) (k : Nat) : Snapshot α := o.history.toList.getD k o.final

theorem Outcome.state_size (o : Outcome α) : o.state o.history.size = o.final := by
  show o.history.toList.getD _ _ = _
  rw [List.getD_eq_getElem?_getD, List.getElem?_eq_none (Nat.le_of_eq o.history.length_toList)]
  rfl

theorem Outcome.state_of_lt (o : Outcome α) {k : Nat} (hk : k < o.history.size) :
    o.state k = o.history[k] := by
  show o.history.toList.getD _ _ = _
  rw [List.getD_eq_getElem?_getD, List.getElem?_eq_getElem (by simpa using hk)]
  rfl

def Iterate.snapshot {n : Nat} (current : Iterate α n) (i : Nat) (v : α) : Snapshot α :=
  ⟨i, current.point.toArray, v, current.damping⟩

/-- is the last record below the tolerance? -/
def endsBelow [Scalar α] (tolerance : α) (records : List (Snapshot α)) : Bool :=
  records.getLast?.any fun a => a.residualNorm < tolerance

theorem endsBelow_eq_true [Scalar α] {tolerance : α} {records : List (Snapshot α)} :
    endsBelow tolerance records = true ↔
      ∃ a, records.getLast? = some a ∧ a.residualNorm < tolerance := by
  unfold endsBelow
  simp only [Option.any_eq_true, decide_eq_true_eq]

variable [RealScalar α]

/-- why a loop has ended that has left these records -/
def loopExit (tolerance : α) (records : List (Snapshot α)) : Status :=
  if endsBelow tolerance records then .converged else .maxIterations

/-! ## the relation -/

/-- at most `budget` passes from one iterate to another, the first one with the number `i`: their
records, their notes and the reason for their end.  `Tells a y μ b` says that the note `b` tells of
a pass from the state `a` to the point `y` and the damping `μ` -/
inductive Trace (tolerance : α) (Tells : Snapshot α → Array α → α → ν → Prop) {n : Nat} :
    (budget i : Nat) → Iterate α n → List (Snapshot α) → List ν → Iterate α n → Status → Prop where
  | spent {i : Nat} {current : Iterate α n} :
      Trace tolerance Tells 0 i current [] [] current .maxIterations
  | stop {budget i : Nat} {current : Iterate α n} {v : α} {note : ν} (below : v < tolerance)
      (told : Tells (current.snapshot i v) current.point.toArray current.damping note) :
      Trace tolerance Tells (budget + 1) i current [current.snapshot i v] [note] current .converged
  | pass {budget i : Nat} {current next last : Iterate α n} {v : α} {note : ν}
      {records : List (Snapshot α)} {notes : List ν} {exit : Status} (above : ¬ v < tolerance)
      (told : Tells (current.snapshot i v) next.point.toArray next.damping note)
      (rest : Trace tolerance Tells budget (i + 1) next records notes last exit) :
      Trace tolerance Tells (budget + 1) i current (current.snapshot i v :: records)
        (note :: notes) last exit

namespace Trace
variable {tolerance : α} {Tells : Snapshot α → Array α → α → ν → Prop} {n budget i k : Nat}
  {current last : Iterate α n} {records : List (Snapshot α)} {notes : List ν} {exit : Status}
  {final : Snapshot α}

/-! ### how a trace ends -/

theorem length_le (h : Trace tolerance Tells budget i current records notes last exit) :
    records.length ≤ budget := by
  induction h with
  | spent => exact Nat.le_refl 0
  | stop _ _ => exact Nat.succ_le_succ (Nat.zero_le _)
  | pass _ _ _ ih => exact Nat.succ_le_succ ih

theorem length_eq (h : Trace tolerance Tells budget i current records notes last exit) :
    notes.length = records.length := by
  induction h with
  | spent => rfl
  | stop _ _ => rfl
  | pass _ _ _ ih => exact congrArg (· + 1) ih

/-- passes end at a record below the tolerance, or with their budget -/
theorem converged_or_spent (h : Trace tolerance Tells budget i current records notes last exit) :
    (exit = .converged ∧ endsBelow tolerance records = true) ∨
      (exit = .maxIterations ∧ records.length = budget ∧
        ∀ a ∈ records, ¬ a.residualNorm < tolerance) := by
  induction h with
  | spent => exact .inr ⟨rfl, rfl, nofun⟩
  | stop below _ => exact .inl ⟨rfl, endsBelow_eq_true.mpr ⟨_, rfl, below⟩⟩
  | pass above _ _ ih =>
    rcases ih with ⟨hexit, hbelow⟩ | ⟨hexit, hlength, habove⟩
    · obtain ⟨a, hlast, hb⟩ := endsBelow_eq_true.mp hbelow
      refine .inl ⟨hexit, endsBelow_eq_true.mpr ⟨a, ?_, hb⟩⟩
      rw [List.getLast?_cons, hlast]
      rfl
    · exact .inr ⟨hexit, congrArg (· + 1) hlength, List.forall_mem_cons.mpr ⟨above, habove⟩⟩

/-- without a record below the tolerance the budget has been spent -/
theorem spent_of_above (h : Trace tolerance Tells budget i current records notes last exit)
    (habove : ∀ a ∈ records, ¬ a.residualNorm < tolerance) :
    exit = .maxIterations ∧ records.length = budget := by
  rcases h.converged_or_spent with ⟨-, hbelow⟩ | ⟨hexit, hlength, -⟩
  · obtain ⟨a, hlast, hb⟩ := endsBelow_eq_true.mp hbelow
    exact absurd hb (habove a (List.mem_of_getLast? hlast))
  · exact ⟨hexit, hlength⟩

/-- passes that leave some of their budget have come below the tolerance -/
theorem exists_below (h : Trace tolerance Tells budget i current records notes last exit)
    (hlt : records.length < budget) :
    ∃ k, k + 1 = records.length ∧ (records.getD k final).residualNorm < tolerance := by
  induction h with
  | spent => exact absurd hlt (Nat.lt_irrefl 0)
  | stop below _ => exact ⟨0, rfl, below⟩
  | pass _ _ _ ih =>
    obtain ⟨k, hk, hb⟩ := ih (Nat.lt_of_succ_lt_succ hlt)
    exact ⟨k + 1, congrArg (· + 1) hk, hb⟩

theorem exit_eq (h : Trace tolerance Tells budget i current records notes last exit) :
    exit = loopExit tolerance records := by
  unfold loopExit
  rcases h.converged_or_spent with ⟨hexit, hbelow⟩ | ⟨hexit, -, habove⟩
  · rw [hexit, if_pos hbelow]
  · rw [hexit, if_neg]
    intro hbelow
    obtain ⟨a, hlast, hb⟩ := endsBelow_eq_true.mp hbelow
    exact habove a (List.mem_of_getLast? hlast) hb

/-! ### the states -/

/-- below the tolerance a run ends where it is -/
theorem getD_stop (h : Trace tolerance Tells budget i current records notes last exit)
    (hk : k < records.length) (hb : (records.getD k final).residualNorm < tolerance) :
    k + 1 = records.length ∧ last.point.toArray = (records.getD k final).point ∧
      last.damping = (records.getD k final).damping := by
  induction h generalizing k with
  | spent => exact absurd hk (Nat.not_lt_zero k)
  | stop _ _ =>
    obtain rfl : k = 0 := Nat.lt_one_iff.mp hk
    exact ⟨rfl, rfl, rfl⟩
  | pass above _ _ ih =>
    cases k with
    | zero => exact absurd hb above
    | succ k =>
      obtain ⟨hlength, hpoint⟩ := ih (Nat.lt_of_succ_lt_succ hk) hb
      exact ⟨congrArg (· + 1) hlength, hpoint⟩

theorem getD_zero (h : Trace tolerance Tells budget i current records notes last exit)
    (hx : final.point = last.point.toArray) (hd : final.damping = last.damping) :
    (records.getD 0 final).point = current.point.toArray ∧
      (records.getD 0 final).damping = current.damping := by
  cases h with
  | spent => exact ⟨hx, hd⟩
  | stop _ _ => exact ⟨rfl, rfl⟩
  | pass _ _ _ => exact ⟨rfl, rfl⟩

theorem getD_iteration (h : Trace tolerance Tells budget i current records notes last exit)
    (hi : final.iteration = i + records.length) (hx : final.point = last.point.toArray)
    (hk : k ≤ records.length) :
    (records.getD k final).iteration = i + k ∧ (records.getD k final).point.size = n := by
  have hfinal : final.point.size = n := by rw [hx, Vector.size_toArray]
  induction h generalizing k with
  | spent =>
    obtain rfl : k = 0 := Nat.le_zero.mp hk
    exact ⟨hi, hfinal⟩
  | @stop _ _ current _ _ _ _ =>
    cases k with
    | zero => exact ⟨rfl, current.point.size_toArray⟩
    | succ k =>
      obtain rfl : k = 0 := Nat.le_zero.mp (Nat.le_of_succ_le_succ hk)
      exact ⟨hi, hfinal⟩
  | @pass _ i current _ _ _ _ records _ _ _ _ _ ih =>
    cases k with
    | zero => exact ⟨rfl, current.point.size_toArray⟩
    | succ k =>
      have hnext : final.iteration = i + 1 + records.length := by
        rw [hi, List.length_cons]
        omega
      obtain ⟨hiteration, hsize⟩ := ih hnext hx (Nat.le_of_succ_le_succ hk)
      refine ⟨?_, hsize⟩
      show (records.getD k final).iteration = i + (k + 1)
      rw [hiteration]
      omega

/-- the states of a whole run are numbered from zero, and their points are all of one size -/
theorem state_iteration {o : Outcome α}
    (h : Trace tolerance Tells budget 0 current o.history.toList notes last exit)
    (hx : o.final.point = last.point.toArray) (hk : k ≤ o.history.size) :
    (o.state k).iteration = k ∧ (o.state k).point.size = n := by
  have hi : o.final.iteration = 0 + o.history.toList.length := (Nat.zero_add _).symm
  have hiteration := h.getD_iteration hi hx hk
  rw [Nat.zero_add] at hiteration
  exact hiteration

/-- the note of a pass tells how it leads to the next state -/
theorem getD_told (h : Trace tolerance Tells budget i current records notes last exit)
    (hx : final.point = last.point.toArray) (hd : final.damping = last.damping)
    (hk : k < notes.length) : Tells (records.getD k final) (records.getD (k + 1) final).point
      (records.getD (k + 1) final).damping notes[k] := by
  induction h generalizing k with
  | spent => exact absurd hk (Nat.not_lt_zero k)
  | @stop _ i current v _ _ told =>
    obtain rfl : k = 0 := Nat.lt_one_iff.mp hk
    show Tells (current.snapshot i v) final.point final.damping _
    rw [hx, hd]
    exact told
  | pass _ told rest ih =>
    cases k with
    | zero =>
      obtain ⟨hpoint, hdamping⟩ := rest.getD_zero hx hd
      rw [List.getD_cons_succ, hpoint, hdamping]
      exact told
    | succ k => exact ih hx hd (Nat.lt_of_succ_lt_succ hk)

end Trace

/-! ## what the operations record -/

namespace Solve

section
variable {p : Problem σ α} {n : Nat} {s s' : Session σ α}

omit [RealScalar α] in
theorem history_of_residuals {x r : Array α} (h : Returns (residuals p x) s r s') :
    s'.history = s.history := by
  obtain ⟨q, -, -, rfl⟩ := returns_residuals.mp h
  rfl

theorem history_of_attempt {ε : α} {i : Nat} {current next : Iterate α n} {r : Array α}
    (h : Returns (attempt p ε i current r) s next s') : s'.history = s.history := by
  obtain ⟨J, s₁, hJ, h⟩ := returns_attempt.mp h
  obtain ⟨q, -, rfl⟩ := returns_jacobian.mp hJ
  rcases h with ⟨-, -, rfl⟩ | ⟨step, c, s₂, -, hc, -, rfl⟩
  · rfl
  · have hhistory := history_of_residuals hc
    exact hhistory

end
end Solve

/-! ## notes -/

section
open Solve

/-- a way to tell the passes of a problem in notes: what the notes say of the sessions, and what
each one says of its pass -/
structure Notes (p : Problem σ α) (config : Config α) (n : Nat) (ν : Type) where
  /-- the passes that the notes tell of lead from one session to the other -/
  Adds : Session σ α → List ν → Session σ α → Prop
  /-- the note tells of a pass from a state to a point and a damping -/
  Tells : Snapshot α → Array α → α → ν → Prop
  nil (s : Session σ α) : Adds s [] s
  cons {s s₁ s' : Session σ α} {note : ν} {notes : List ν} (first : Adds s [note] s₁)
    (rest : Adds s₁ notes s') : Adds s (note :: notes) s'
  stop {i : Nat} {current : Iterate α n} {r : Array α} {s s₁ : Session σ α}
    (evaluated : Returns (residuals p current.point.toArray) s r s₁)
    (below : norm r < config.tolerance) :
    ∃ note, Adds s [note] (recorded s₁ i current (norm r)) ∧
      Tells (current.snapshot i (norm r)) current.point.toArray current.damping note
  pass {i : Nat} {current next : Iterate α n} {r : Array α} {s s₁ s' : Session σ α}
    (evaluated : Returns (residuals p current.point.toArray) s r s₁)
    (above : ¬ norm r < config.tolerance)
    (tried : Returns (attempt p config.differenceStep i current r)
      (recorded s₁ i current (norm r)) next s') :
    ∃ note, Adds s [note] s' ∧
      Tells (current.snapshot i (norm r)) next.point.toArray next.damping note

/-- a solve with the outcome `o`: its passes lead to the iterate `last` in the session `s`, and the
residuals `r` there to the end in the session `s'` -/
structure Solved (p : Problem σ α) (config : Config α) (x₀ : Array α) (q : σ) (o : Outcome α)
    (last : Iterate α x₀.size) (exit : Status) (s : Session σ α) (r : Array α)
    (s' : Session σ α) : Prop where
  valid : config.validate = .ok ()
  nonempty : x₀.size ≠ 0
  passes : Returns
    (passes p config config.maxIterations 0 ⟨x₀.toVector, config.initialDamping⟩) (.start q)
    (last, exit) s
  evaluated : Returns (residuals p last.point.toArray) s r s'
  outcome : o = returned s' last (config.criteria.finalStatus (norm r)) (norm r)
  run : (minimize config p x₀).run q =
    (⟨.ok o, (reported s' exit o.status o.residualNorm).log⟩, s'.problem)

variable {p : Problem σ α} {config : Config α}

theorem exists_solved {x₀ : Array α} {q : σ} {o : Outcome α}
    (h : ((minimize config p x₀).run q).1.result = .ok o) :
    ∃ last exit s r s', Solved p config x₀ q o last exit s r s' := by
  obtain ⟨s'', h⟩ := result_minimize.mp h
  obtain ⟨hvalid, hsize, last, exit, s, hpasses, hfinish⟩ := returns_minimize.mp h
  obtain ⟨r, s', hr, rfl, rfl⟩ := returns_finish.mp hfinish
  exact ⟨last, exit, s, r, s', hvalid, hsize, hpasses, hr, rfl, minimize_eq_of_run h⟩

namespace Solved
variable {x₀ : Array α} {q : σ} {o : Outcome α} {last : Iterate α x₀.size} {exit : Status}
  {s s' : Session σ α} {r : Array α}

theorem status_eq (h : Solved p config x₀ q o last exit s r s') :
    o.status = config.criteria.finalStatus o.residualNorm := by
  rw [h.outcome]
  rfl

theorem history_eq (h : Solved p config x₀ q o last exit s r s') : o.history = s.history := by
  rw [h.outcome]
  exact history_of_residuals h.evaluated

theorem point_final (h : Solved p config x₀ q o last exit s r s') :
    o.final.point = last.point.toArray := by
  rw [h.outcome]
  rfl

theorem damping_final (h : Solved p config x₀ q o last exit s r s') :
    o.final.damping = last.damping := by
  rw [h.outcome]
  rfl

end Solved

namespace Notes

/-- the telling that says nothing, of any problem -/
def silent (p : Problem σ α) (config : Config α) (n : Nat) : Notes p config n Unit where
  Adds _ _ _ := True
  Tells _ _ _ _ := True
  nil _ := trivial
  cons _ _ := trivial
  stop _ _ := ⟨(), trivial, trivial⟩
  pass _ _ _ := ⟨(), trivial, trivial⟩

/-- a loop that succeeds has a trace -/
theorem exists_trace {n : Nat} (N : Notes p config n ν) {budget i : Nat}
    {current last : Iterate α n} {exit : Status} {s s' : Session σ α}
    (h : Returns (passes p config budget i current) s (last, exit) s') :
    ∃ records notes, s'.history.toList = s.history.toList ++ records ∧ N.Adds s notes s' ∧
      Trace config.tolerance N.Tells budget i current records notes last exit := by
  induction budget generalizing i current s with
  | zero =>
    obtain ⟨rfl, rfl, rfl⟩ := returns_passes_zero.mp h
    exact ⟨[], [], (List.append_nil _).symm, N.nil s', .spent⟩
  | succ budget ih =>
    obtain ⟨r, s₁, hr, h⟩ := returns_passes_succ.mp h
    have hrecorded : (recorded s₁ i current (norm r)).history.toList =
        s.history.toList ++ [current.snapshot i (norm r)] := by
      rw [← history_of_residuals hr]
      exact Array.toList_push
    rcases h with ⟨below, rfl, rfl, rfl⟩ | ⟨above, next, s₂, hn, h⟩
    · obtain ⟨note, hadds, htold⟩ := N.stop hr below
      exact ⟨_, [note], hrecorded, hadds, .stop below htold⟩
    · obtain ⟨note, hadds, htold⟩ := N.pass hr above hn
      obtain ⟨records, notes, hs', hrest, htrace⟩ := ih h
      refine ⟨_, note :: notes, ?_, N.cons hadds hrest, .pass above htold htrace⟩
      rw [hs', history_of_attempt hn, hrecorded, List.append_assoc]
      rfl

/-- so has a solve that succeeds, and its records are the history -/
theorem trace_of_solved {x₀ : Array α} (N : Notes p config x₀.size ν) {q : σ} {o : Outcome α}
    {last : Iterate α x₀.size} {exit : Status} {s s' : Session σ α} {r : Array α}
    (h : Solved p config x₀ q o last exit s r s') :
    ∃ notes, N.Adds (.start q) notes s ∧
      Trace config.tolerance N.Tells config.maxIterations 0 ⟨x₀.toVector, config.initialDamping⟩
        o.history.toList notes last exit := by
  obtain ⟨records, notes, hrecords, hadds, htrace⟩ := N.exists_trace h.passes
  refine ⟨notes, hadds, ?_⟩
  have hlist : o.history.toList = records := by
    rw [h.history_eq]
    exact hrecords
  rw [hlist]
  exact htrace

end Notes
end

end LeastSquares
