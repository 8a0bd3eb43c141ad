import NetPool.Io.Registry

namespace NetPool
namespace Registry

variable {r : Registry} {t : Nat} {i : JobId} {is deleted : List JobId}

-- A job that a pass of thread `t` takes out of the list.
abbrev Dead (r : Registry) (t : Nat) (i : JobId) : Prop :=
  (r.job i).thrdIndex = t ∧ (r.job i).isWantDelete = true

theorem handleDelingLoop_eq : handleDelingLoop t is (r, deleted) =
    ({ r with ioJobs := r.ioJobs.filter (· ∉ is.filter (r.Dead t ·)) },
      deleted ++ is.filter (r.Dead t ·)) := by
  induction is generalizing r deleted
  case nil          => simp [handleDelingLoop]
  case cons i is hi =>
    unfold handleDelingLoop
    by_cases h : r.Dead t i
    case neg => rw [if_neg h, hi, List.filter_cons_of_neg (by simpa using h)]
    case pos =>
      rw [if_pos h, hi, List.filter_cons_of_pos (by simpa using h)]
      simp only [List.filter_filter, List.append_assoc, List.singleton_append, List.mem_cons]
      congr! 4 with j
      by_cases hj : j = i <;> simp [hj]

-- A pass unlinks exactly the jobs of its thread that are marked, and keeps the others in their
-- order.
theorem handleDelingJob_eq : r.handleDelingJob t =
    ({ r with ioJobs := r.ioJobs.filter (¬r.Dead t ·) }, r.ioJobs.filter (r.Dead t ·)) := by
  rw [handleDelingJob, handleDelingLoop_eq, List.nil_append]
  congr! 2
  apply List.filter_congr
  intro i hi
  simp [hi]

theorem handleDelingJob_sublist : (r.handleDelingJob t).1.ioJobs.Sublist r.ioJobs := by
  rw [handleDelingJob_eq]
  exact List.filter_sublist

end Registry
end NetPool
