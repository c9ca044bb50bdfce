import Quoin.Claims.Invariant

/-!
# Quoin — who a step suspends

A step is taken by one task. It may wake others, but suspends none of them and
opens no park epoch for them (`step_others`). A task's epoch is that of its
last load, so a park is over when the epoch has grown (`step_epoch`).
-/

namespace Quoin.Claims

open Trans

/-- The task that takes the step. -/
def Action.task : Action → Option TaskId
  | .register _ _ _ => none
  | .call t _ _ _ _ => some t
  | .resume t _ => some t
  | .endCall t _ => some t
  | .drain t _ => some t
  | .cancel t => some t
  | .elsewhere t _ _ => some t

variable {vm vm' : Vm} {a : Action} {u : TaskId}

/-- Only its own steps park a task, end its park or load it. -/
theorem step_others (hne : u ∉ a.task) (hStep : vm.step a = some vm') :
    (vm'.tasks u).park = (vm.tasks u).park ∧ (vm'.tasks u).parkEpoch = (vm.tasks u).parkEpoch := by
  -- writing another task's record, and waking waiters, leave these two fields of `u`
  have hSet : ∀ (vm : Vm) (t : TaskId) (task : Task), u ≠ t →
      (vm.setTask t task).tasks u = vm.tasks u :=
    fun vm t task hut => Function.update_of_ne hut _ _
  have hEnd : ∀ (vm : Vm) (p : PeerId) (id : ObjectId) (now : Nat),
      ((vm.endPeerCallAndWake p id now).tasks u).park = (vm.tasks u).park ∧
        ((vm.endPeerCallAndWake p id now).tasks u).parkEpoch = (vm.tasks u).parkEpoch := by
    intro vm p id now
    obtain ⟨hEpoch, hPark, -⟩ := VmOk.deliver_fields vm.tasks
      ((vm.peers p).endCall id vm.live now).2 u
    exact ⟨hPark, hEpoch⟩
  cases a with
  | register p label lanes =>
    simp only [Vm.step] at hStep
    split_ifs at hStep
    rw [← Option.some.inj hStep]
    exact ⟨rfl, rfl⟩
  | call t p id label now =>
    have hut : u ≠ t := by simpa [Action.task, eq_comm] using hne
    simp only [Vm.step] at hStep
    split_ifs at hStep
    rw [← Option.some.inj hStep]
    unfold Vm.claimPeerObject
    simp only
    split
    · simp [hSet _ t _ hut, Vm.setPeer]
    · simp [hSet _ t _ hut, Vm.setPeer]
    · exact ⟨rfl, rfl⟩
    · unfold Vm.awaitClaim
      simp only
      split
      · exact ⟨rfl, rfl⟩
      · simp [hSet _ t _ hut, Vm.setPeer]
  | resume t now =>
    have hut : u ≠ t := by simpa [Action.task, eq_comm] using hne
    have hLoad : (vm.load t).tasks u = vm.tasks u := hSet _ t _ hut
    simp only [Vm.step] at hStep
    split_ifs at hStep
    split at hStep
    · rename_i p id kind hPark
      rw [← Option.some.inj hStep]
      unfold Vm.resumeClaim
      simp only
      split_ifs
      · obtain ⟨hPark', hEpoch⟩ := hEnd ((vm.load t).setTask t
          { (vm.load t).tasks t with park := none }) p id now
        rw [hSet _ t _ hut, hPark', hEpoch, hSet _ t _ hut, hLoad]
        exact ⟨rfl, rfl⟩
      · rw [hSet _ t _ hut]
        simp only [Vm.setPeer]
        rw [hSet _ t _ hut, hLoad]
        exact ⟨rfl, rfl⟩
      · rw [hSet _ t _ hut, hLoad]
        exact ⟨rfl, rfl⟩
      · rw [hSet _ t _ hut, hLoad]
        exact ⟨rfl, rfl⟩
    · rw [← Option.some.inj hStep]
      unfold Vm.resumeDrain
      rw [hSet _ t _ hut, hLoad]
      exact ⟨rfl, rfl⟩
    · cases hStep
  | endCall t now =>
    have hut : u ≠ t := by simpa [Action.task, eq_comm] using hne
    simp only [Vm.step] at hStep
    split_ifs at hStep
    split at hStep
    · rename_i p id calls hCalls
      obtain ⟨hPark, hEpoch⟩ := hEnd (vm.setTask t { vm.tasks t with calls }) p id now
      rw [← Option.some.inj hStep, hPark, hEpoch, hSet _ t _ hut]
      exact ⟨rfl, rfl⟩
    · cases hStep
  | drain t p =>
    have hut : u ≠ t := by simpa [Action.task, eq_comm] using hne
    simp only [Vm.step] at hStep
    split_ifs at hStep
    rw [← Option.some.inj hStep]
    unfold Vm.drainLanes
    simp only
    split_ifs
    · exact ⟨rfl, rfl⟩
    · simp [hSet _ t _ hut, Vm.setPeer]
  | cancel t =>
    have hut : u ≠ t := by simpa [Action.task, eq_comm] using hne
    rw [← Option.some.inj hStep, Vm.requestCancel, hSet _ t _ hut]
    exact ⟨rfl, rfl⟩
  | elsewhere t parked takeCancel =>
    have hut : u ≠ t := by simpa [Action.task, eq_comm] using hne
    simp only [Vm.step] at hStep
    split_ifs at hStep
    rw [← Option.some.inj hStep, hSet _ t _ hut]
    simp [Vm.load, hSet _ t _ hut]

/-- A park lasts while the epoch does. -/
theorem step_epoch (hok : VmOk vm) (hStep : vm.step a = some vm') (u : TaskId) :
    (vm.tasks u).parkEpoch < (vm'.tasks u).parkEpoch ∨
      (vm'.tasks u).parkEpoch = (vm.tasks u).parkEpoch ∧
        ((vm.tasks u).park.isSome → (vm'.tasks u).park.isSome) := by
  by_cases hne : u ∈ a.task
  swap
  · obtain ⟨hPark, hEpoch⟩ := step_others hne hStep
    exact Or.inr ⟨hEpoch, fun h => hPark ▸ h⟩
  have hSelf : ∀ (vm : Vm) (task : Task), (vm.setTask u task).tasks u = task :=
    fun vm task => Function.update_self _ _ _
  -- a task that is loaded gets an epoch that no park had before
  have hNewer := Nat.lt_succ_of_le (hok.epoch u)
  cases a with
  | register p label lanes => cases hne
  | call t p id label now =>
    obtain rfl : t = u := by simpa [Action.task] using hne
    simp only [Vm.step] at hStep
    split_ifs at hStep with hRunning
    simp only [Vm.running, Bool.and_eq_true, Option.isNone_iff_eq_none] at hRunning
    -- the task that acts is not parked
    refine Or.inr ⟨?_, fun h => by simp [hRunning.1.1] at h⟩
    rw [← Option.some.inj hStep]
    unfold Vm.claimPeerObject
    simp only
    split
    · rw [hSelf]
    · rw [hSelf]
    · rfl
    · unfold Vm.awaitClaim
      simp only
      split
      · rfl
      · rw [hSelf]
        rfl
  | resume t now =>
    obtain rfl : t = u := by simpa [Action.task] using hne
    have hLoad : ((vm.load t).tasks t).parkEpoch = vm.parkSeq + 1 := by rw [Vm.load, hSelf]
    left
    simp only [Vm.step] at hStep
    split_ifs at hStep
    split at hStep
    · rename_i p id kind hPark
      rw [← Option.some.inj hStep]
      unfold Vm.resumeClaim
      simp only
      split_ifs
      · rw [hSelf]
        have hEpoch := (VmOk.deliver_fields ((vm.load t).setTask t
          { (vm.load t).tasks t with park := none }).tasks (((vm.load t).peers p).endCall id
            ((vm.load t).setTask t { (vm.load t).tasks t with park := none }).live now).2 t).1
        rw [hSelf] at hEpoch
        exact hNewer.trans_eq (hLoad.symm.trans hEpoch.symm)
      · rw [hSelf]
        simp only [Vm.setPeer]
        rw [hSelf]
        exact hNewer.trans_eq hLoad.symm
      · rw [hSelf]
        exact hNewer.trans_eq hLoad.symm
      · rw [hSelf]
        exact hNewer.trans_eq hLoad.symm
    · rw [← Option.some.inj hStep]
      unfold Vm.resumeDrain
      rw [hSelf]
      exact hNewer.trans_eq hLoad.symm
    · cases hStep
  | endCall t now =>
    obtain rfl : t = u := by simpa [Action.task] using hne
    simp only [Vm.step] at hStep
    split_ifs at hStep with hRunning
    simp only [Vm.running, Bool.and_eq_true, Option.isNone_iff_eq_none] at hRunning
    refine Or.inr ⟨?_, fun h => by simp [hRunning.1] at h⟩
    split at hStep
    · rename_i p id calls hCalls
      have hEpoch := (VmOk.deliver_fields (vm.setTask t { vm.tasks t with calls }).tasks
        ((vm.peers p).endCall id (vm.setTask t { vm.tasks t with calls }).live now).2 t).1
      rw [hSelf] at hEpoch
      rw [← Option.some.inj hStep]
      exact hEpoch
    · cases hStep
  | drain t p =>
    obtain rfl : t = u := by simpa [Action.task] using hne
    simp only [Vm.step] at hStep
    split_ifs at hStep with hRunning
    simp only [Vm.running, Bool.and_eq_true, Option.isNone_iff_eq_none] at hRunning
    refine Or.inr ⟨?_, fun h => by simp [hRunning.1.1] at h⟩
    rw [← Option.some.inj hStep]
    unfold Vm.drainLanes
    simp only
    split_ifs
    · rfl
    · rw [hSelf]
  | cancel t =>
    obtain rfl : t = u := by simpa [Action.task] using hne
    rw [← Option.some.inj hStep, Vm.requestCancel, hSelf]
    exact Or.inr ⟨rfl, id⟩
  | elsewhere t parked takeCancel =>
    obtain rfl : t = u := by simpa [Action.task] using hne
    simp only [Vm.step] at hStep
    split_ifs at hStep
    rw [← Option.some.inj hStep, hSelf, Vm.load, hSelf]
    exact Or.inl hNewer

end Quoin.Claims
