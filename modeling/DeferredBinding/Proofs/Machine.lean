import DeferredBinding.Host
import DeferredBinding.Link.Error

/-!
# Programs on a model of a machine

`perform` runs a program on a model of a machine. The lemmas here take a program apart into its steps, so that later proofs do
not look into the monads that it is written in.
-/

namespace DeferredBinding

/-- What a program gives on a machine, with the machine after it. -/
def perform {α : Type} (x : ExceptT LinkError (StateM Machine) α) (s : Machine) : Except LinkError α × Machine :=
  x.run.run s

variable {α β : Type} (s : Machine)

/-! ## What the machine answers -/

/-- Two steps on a machine that cannot fail. -/
theorem run_bind (x : StateM Machine α) (f : α → StateM Machine β) : (x >>= f).run s = (f (x.run s).1).run (x.run s).2 := rfl

/-- Two steps on a machine, the first of which is known. -/
theorem run_bind_of_eq {x : StateM Machine α} {s s' : Machine} {a : α} (h : x.run s = (a, s')) (f : α → StateM Machine β) :
    (x >>= f).run s = (f a).run s' := by
  rw [run_bind, h]

@[simp] theorem run_pathExists (p : Path) : (Host.pathExists p : StateM Machine Bool).run s = (s.disk.exists? p, s) := rfl

@[simp] theorem run_isDirectory (p : Path) : (Host.isDirectory p : StateM Machine Bool).run s = (s.disk.isDirectory p, s) := rfl

@[simp] theorem run_read (p : Path) :
    (Host.read p : StateM Machine (Except Refusal ByteArray)).run s = (s.disk.read p, s) := rfl

@[simp] theorem run_filesBelow (p : Path) :
    (Host.filesBelow p : StateM Machine (Except Refusal (List (Location × ByteArray)))).run s = (s.disk.filesBelow p, s) := rfl

/-- A change of the disk that is done wholly. -/
theorem run_change_of_ok {f : Disk → Except Refusal Disk} {s : Machine} {disk : Disk} (h : f s.disk = .ok disk) :
    (Machine.change f).run s = (.ok (), { s with disk }) := by
  rw [StateT.run, Machine.change, h]

/-- A change of the disk that is refused is not done at all. -/
theorem run_change_of_error {f : Disk → Except Refusal Disk} {s : Machine} {e : Refusal} (h : f s.disk = .error e) :
    (Machine.change f).run s = (.error e, s) := by
  rw [StateT.run, Machine.change, h]

/-- What a change that is done makes of the disk. -/
theorem disk_of_run_change {f : Disk → Except Refusal Disk} {s s' : Machine} (h : (Machine.change f).run s = (.ok (), s')) :
    f s.disk = .ok s'.disk := by
  cases hf : f s.disk with
  | error e =>
    rw [run_change_of_error hf] at h
    cases (Prod.mk.inj h).1
  | ok disk =>
    rw [run_change_of_ok hf] at h
    rw [← (Prod.mk.inj h).2]

/-- A directory that is made. -/
theorem run_makeDirectory_of_ok {p : Path} {s : Machine} {disk : Disk} (h : s.disk.makeDirectory p = .ok disk) :
    (Host.makeDirectory p : StateM Machine (Except Refusal Unit)).run s = (.ok (), { s with disk }) :=
  run_change_of_ok (f := (·.makeDirectory p)) h

/-- A directory that is not made. -/
theorem run_makeDirectory_of_error {p : Path} {s : Machine} {e : Refusal} (h : s.disk.makeDirectory p = .error e) :
    (Host.makeDirectory p : StateM Machine (Except Refusal Unit)).run s = (.error e, s) :=
  run_change_of_error (f := (·.makeDirectory p)) h

@[simp] theorem run_removeTree (p : Path) :
    (Host.removeTree p : StateM Machine (Except Refusal Unit)).run s =
      ((s.disk.removeTree p).1, { s with disk := (s.disk.removeTree p).2 }) := rfl

/-- A step that only asks or changes the machine, in front of others that may fail in any way. -/
theorem run_lift_bind {ε : Type} (x : StateM Machine α) (f : α → ExceptT ε (StateM Machine) β) :
    ((liftM x : ExceptT ε (StateM Machine) α) >>= f).run.run s = (f (x.run s).1).run.run (x.run s).2 := rfl

/-! ## Steps of a program -/

/-- A step that only asks or changes the machine. -/
@[simp] theorem perform_lift (x : StateM Machine α) :
    perform (liftM x : ExceptT LinkError (StateM Machine) α) s = (.ok (x.run s).1, (x.run s).2) := rfl

/-- A step that does not touch the machine. -/
@[simp] theorem perform_except (x : Except LinkError α) :
    perform (liftM x : ExceptT LinkError (StateM Machine) α) s = (x, s) := rfl

/-- Two steps: the second is taken on the machine after the first, unless that failed. -/
theorem perform_bind (x : ExceptT LinkError (StateM Machine) α) (f : α → ExceptT LinkError (StateM Machine) β) :
    perform (x >>= f) s =
      match perform x s with
      | (.ok a, s') => perform (f a) s'
      | (.error e, s') => (.error e, s') := by
  simp only [perform, ExceptT.run_bind, StateT.run_bind]
  rcases StateT.run x.run s with ⟨r, s'⟩
  cases r with
  | ok a => rfl
  | error e => rfl

/-- The first of two steps succeeds. -/
theorem perform_bind_of_ok {x : ExceptT LinkError (StateM Machine) α} {s s' : Machine} {a : α}
    (h : perform x s = (.ok a, s')) (f : α → ExceptT LinkError (StateM Machine) β) :
    perform (x >>= f) s = perform (f a) s' := by
  rw [perform_bind, h]

/-- What two steps come to: the first fails, or the second is taken on the machine after the first. -/
theorem perform_bind_cases {x : ExceptT LinkError (StateM Machine) α} {f : α → ExceptT LinkError (StateM Machine) β}
    {s s'' : Machine} {r : Except LinkError β} (h : perform (x >>= f) s = (r, s'')) :
    (∃ e, perform x s = (.error e, s'') ∧ r = .error e) ∨ ∃ a s', perform x s = (.ok a, s') ∧ perform (f a) s' = (r, s'') := by
  rw [perform_bind] at h
  split at h
  · rename_i a s' hx
    exact Or.inr ⟨a, s', hx, h⟩
  · rename_i e s' hx
    obtain ⟨rfl, rfl⟩ := Prod.mk.inj h
    exact Or.inl ⟨e, hx, rfl⟩

/-- Two steps succeed if both do. -/
theorem perform_bind_ok {x : ExceptT LinkError (StateM Machine) α} {f : α → ExceptT LinkError (StateM Machine) β}
    {s s'' : Machine} {b : β} (h : perform (x >>= f) s = (.ok b, s'')) :
    ∃ a s', perform x s = (.ok a, s') ∧ perform (f a) s' = (.ok b, s'') := by
  rcases perform_bind_cases h with ⟨_, -, hr⟩ | hboth
  · nomatch hr
  · exact hboth

/-- A program whose answer is no failure gives a result. -/
theorem exists_ok_of_isOk {α : Type} {x : ExceptT LinkError (StateM Machine) α} {s : Machine}
    (h : (perform x s).1.isOk = true) : ∃ a s', perform x s = (.ok a, s') := by
  rcases hx : perform x s with ⟨r, s'⟩
  rw [hx] at h
  cases r with
  | ok a => exact ⟨a, s', rfl⟩
  | error e => cases h

/-- A program whose answer is no failure, and is found to be as it should, gives such a result. -/
theorem exists_ok_of_any {α : Type} {x : ExceptT LinkError (StateM Machine) α} {s : Machine} {P : α → Machine → Prop}
    [∀ a s', Decidable (P a s')] (h : (perform x s).1.toOption.any (fun a => P a (perform x s).2) = true) :
    ∃ a s', perform x s = (.ok a, s') ∧ P a s' := by
  rcases hx : perform x s with ⟨r, s'⟩
  rw [hx] at h
  cases r with
  | ok a => exact ⟨a, s', rfl, of_decide_eq_true h⟩
  | error e => cases h

/-- A step with a handler for its failure. -/
theorem perform_tryCatch (x : ExceptT LinkError (StateM Machine) α) (f : LinkError → ExceptT LinkError (StateM Machine) α) :
    perform (tryCatch x f) s =
      match perform x s with
      | (.ok a, s') => (.ok a, s')
      | (.error e, s') => perform (f e) s' := by
  simp only [perform, ExceptT.run_tryCatch, StateT.run_bind]
  rcases StateT.run x.run s with ⟨r, s'⟩
  cases r with
  | ok a => rfl
  | error e => rfl

end DeferredBinding
