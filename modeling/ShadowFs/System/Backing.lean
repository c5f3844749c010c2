import ShadowFs.System.ShFile

/-!
# The backing file of a run

`main` has two names for its backing file.  `filename` is the argument as it was
given, `backing_path` what `realpath` made of it.  `init_parse` reads the first one,
`sf_deparse` writes it, and the callbacks look at the second one.  In between,
`fuse_main` moves a process that is not in the foreground to the root directory,
where a relative `filename` means another file.

A run is reduced to the list of its accesses, each with the absolute name it goes
to.  Which names denote the same file is left to the system: `Naming` only says
what `realpath` promises.
-/

namespace ShadowFs

open CLib UserRep

def IsAbsolute (name : CString) : Prop :=
  name.bytes.head? = some slash

instance (name : CString) : Decidable (IsAbsolute name) :=
  inferInstanceAs (Decidable (_ = _))

/-- The files of a system under their absolute names. -/
structure Naming (φ : Type) where
  file : CString -> φ
  realpath : CString -> CString
  absolute : forall name, IsAbsolute name -> IsAbsolute (realpath name)
  same : forall name, IsAbsolute name -> file (realpath name) = file name

/-- What a start of the program depends on: the directory it is started in, which is
empty for the root directory, the argument and the mode. -/
structure Invocation where
  cwd : CString
  arg : CString
  foreground : Bool
  cwdAbsolute : cwd.bytes = [] ∨ IsAbsolute cwd

section Names

variable {ρ : Type}

theorem resolve_of_absolute {name : CString} (h : IsAbsolute name) (p : Process ρ) :
    p.resolve name = name :=
  if_pos h

theorem resolve_of_relative {name : CString} (h : ¬ IsAbsolute name) (p : Process ρ) :
    p.resolve name = p.cwd ++ CString.lit "/" ++ name :=
  if_neg h

theorem isAbsolute_resolve {p : Process ρ} (h : p.cwd.bytes = [] ∨ IsAbsolute p.cwd)
    (name : CString) : IsAbsolute (p.resolve name) := by
  by_cases hname : IsAbsolute name
  · rw [resolve_of_absolute hname]
    exact hname
  · have hslash : (CString.lit "/").bytes = [slash] := by decide
    rw [resolve_of_relative hname, IsAbsolute, CString.append_bytes, CString.append_bytes,
      hslash]
    rcases h with hroot | hcwd
    · rw [hroot]
      rfl
    · rw [List.append_assoc, List.head?_append, hcwd]
      rfl

/-- The `chdir("/")` of a process that leaves the foreground. -/
def fuseDaemonize (foreground : Bool) (p : Process ρ) : Process ρ :=
  if foreground then p else { p with cwd := CString.lit "" }

@[simp] theorem fuseDaemonize_filename (foreground : Bool) (p : Process ρ) :
    (fuseDaemonize foreground p).filename = p.filename := by
  cases foreground <;> rfl

@[simp] theorem fuseDaemonize_backingPath (foreground : Bool) (p : Process ρ) :
    (fuseDaemonize foreground p).backingPath = p.backingPath := by
  cases foreground <;> rfl

end Names

section Main

variable {ρ φ : Type} [UserRep ρ]

/-- `main` up to `fuse_main`.  A file that cannot be opened hands a null stream to
`fgets`. -/
def mount (naming : Naming φ) (load : LoadEnv ρ) (inv : Invocation)
    (disk : CString -> Option (List Byte)) : Except Fault (Process ρ) :=
  let p : Process ρ :=
    { root := [], filename := inv.arg, backingPath := CString.lit "", cwd := inv.cwd,
      disk := disk }
  match p.disk (p.resolve p.filename) with
  | none => .error .nullPointer
  | some content =>
      match initParse load content with
      | .error fault => .error fault
      | .ok sf =>
          .ok { p with root := sf, backingPath := naming.realpath (p.resolve p.filename) }

/-- The whole program: the requests are served between `fuse_daemonize` and the
`sf_deparse` at the end of `main`. -/
def shfsMain (naming : Naming φ) (load : LoadEnv ρ) (inv : Invocation)
    (disk : CString -> Option (List Byte)) (calls : List (Env ρ × Request)) :
    Except Fault (Process ρ) :=
  match mount naming load inv disk with
  | .error fault => .error fault
  | .ok p =>
      match serveAll calls (fuseDaemonize inv.foreground p) with
      | .error fault => .error fault
      | .ok p' => .ok p'.flush

/-!
## Accesses
-/

/-- A use of the backing file, with the absolute name it goes to. -/
inductive Access where
  | parse (name : CString)
  | deparse (name : CString)
  | stat (name : CString)
  | openRead (name : CString)
deriving DecidableEq

def Access.name : Access -> CString
  | .parse name | .deparse name | .stat name | .openRead name => name

/-- What a request does to the backing file. -/
def Request.accesses (p : Process ρ) : Request -> List Access
  | .getattr path =>
      if path.name = CString.lit "sh_file" ∧ findUser p.root path.name = none then
        [.stat (p.resolve p.backingPath)]
      else []
  | .read path _ _ _ _ =>
      if path.name = CString.lit "sh_file" then
        [.deparse (p.resolve p.filename), .openRead (p.resolve p.backingPath)]
      else []
  | _ => []

/-- The accesses from the first request to the end of `main`.  A run that fails at a
request ends there. -/
def session : List (Env ρ × Request) -> Process ρ -> List Access
  | [], p => [.deparse (p.resolve p.filename)]
  | call :: calls, p =>
      call.2.accesses p ++
        match serveStep call p with
        | .error _ => []
        | .ok p' => session calls p'

/-- The accesses of a run, for the process that `fuse_main` is called with. -/
def mainAccesses (foreground : Bool) (calls : List (Env ρ × Request)) (p : Process ρ) :
    List Access :=
  .parse (p.resolve p.filename) :: session calls (fuseDaemonize foreground p)

/-!
## The accesses account for the files

Only the files under the names of the list are written, and the reply to a request
depends on no others.
-/

theorem disk_flush_of_ne {p : Process ρ} {name : CString}
    (h : name ≠ p.resolve p.filename) : p.flush.disk name = p.disk name :=
  if_neg h

/-!
## The names of a session

The names and the working directory stay as they are while requests are served, so
every access goes to one of two absolute names.
-/

theorem resolve_step {call : Env ρ × Request} {p p' : Process ρ}
    (hstep : serveStep call p = .ok p') :
    p'.resolve p'.filename = p.resolve p.filename ∧
      p'.resolve p'.backingPath = p.resolve p.backingPath := by
  rcases serveStep_process hstep with ⟨_, hnext⟩ | ⟨_, hnext⟩ <;>
    rw [hnext] <;> exact ⟨rfl, rfl⟩

theorem name_of_mem_accesses {req : Request} {p : Process ρ} {a : Access}
    (h : a ∈ req.accesses p) :
    a.name = p.resolve p.filename ∨ a.name = p.resolve p.backingPath := by
  cases req with
  | getattr path =>
      rw [Request.accesses] at h
      split at h
      · rw [List.mem_singleton.mp h]
        exact Or.inr rfl
      · cases h
  | read path stack buf size offset =>
      rw [Request.accesses] at h
      split at h
      · rcases List.mem_pair.mp h with hdeparse | hopen
        · rw [hdeparse]
          exact Or.inl rfl
        · rw [hopen]
          exact Or.inr rfl
      · cases h
  | _ => cases h

theorem name_of_mem_session {a : Access} (calls : List (Env ρ × Request)) (p : Process ρ)
    (h : a ∈ session calls p) :
    a.name = p.resolve p.filename ∨ a.name = p.resolve p.backingPath := by
  induction calls generalizing p with
  | nil =>
      rw [List.mem_singleton.mp h]
      exact Or.inl rfl
  | cons call calls ih =>
      rw [session, List.mem_append] at h
      rcases h with hfirst | hrest
      · exact name_of_mem_accesses hfirst
      · cases hstep : serveStep call p with
        | error fault =>
            rw [hstep] at hrest
            cases hrest
        | ok p1 =>
            rw [hstep] at hrest
            have hnames := resolve_step hstep
            rw [← hnames.1, ← hnames.2]
            exact ih p1 hrest

theorem deparse_mem_session (calls : List (Env ρ × Request)) (p p' : Process ρ)
    (hrun : serveAll calls p = .ok p') :
    Access.deparse (p.resolve p.filename) ∈ session calls p := by
  induction calls generalizing p with
  | nil => exact List.mem_singleton.mpr rfl
  | cons call calls ih =>
      rcases Library.run_cons_ok hrun with ⟨p1, hstep, hrest⟩
      have hlater := ih p1 hrest
      rw [(resolve_step hstep).1] at hlater
      rw [session, hstep]
      exact List.mem_append_right _ hlater

/-!
## One file throughout
-/

/-- Every access of the run goes to the file that `init_parse` read, which is also the
file that `backing_path` names. -/
structure OneFile (naming : Naming φ) (foreground : Bool)
    (calls : List (Env ρ × Request)) (p : Process ρ) : Prop where
  accesses : forall a, a ∈ mainAccesses foreground calls p ->
    naming.file a.name = naming.file (p.resolve p.filename)
  backing : naming.file ((fuseDaemonize foreground p).resolve p.backingPath) =
    naming.file (p.resolve p.filename)

/-- The argument means the same file before and after `fuse_main` takes over: the
process stays in the foreground, the name is absolute, or it leads to the same file
from the root directory. -/
def StaysPut (naming : Naming φ) (inv : Invocation) : Prop :=
  inv.foreground = true ∨ IsAbsolute inv.arg ∨
    naming.file (CString.lit "/" ++ inv.arg) =
      naming.file (inv.cwd ++ CString.lit "/" ++ inv.arg)

theorem mount_ok {naming : Naming φ} {load : LoadEnv ρ} {inv : Invocation}
    {disk : CString -> Option (List Byte)} {p : Process ρ}
    (h : mount naming load inv disk = .ok p) :
    p.filename = inv.arg ∧ p.cwd = inv.cwd ∧
      p.backingPath = naming.realpath (p.resolve p.filename) := by
  rw [mount] at h
  dsimp only at h
  split at h
  · cases h
  · split at h
    · cases h
    · cases h
      exact ⟨rfl, rfl, rfl⟩

theorem shfsMain_ok {naming : Naming φ} {load : LoadEnv ρ} {inv : Invocation}
    {disk : CString -> Option (List Byte)} {calls : List (Env ρ × Request)}
    {p p' : Process ρ} (hmount : mount naming load inv disk = .ok p)
    (h : shfsMain naming load inv disk calls = .ok p') :
    exists q, serveAll calls (fuseDaemonize inv.foreground p) = .ok q ∧ p' = q.flush := by
  rw [shfsMain, hmount] at h
  dsimp only at h
  cases hrun : serveAll calls (fuseDaemonize inv.foreground p) with
  | error fault =>
      rw [hrun] at h
      cases h
  | ok q =>
      rw [hrun] at h
      cases h
      exact ⟨q, rfl, rfl⟩

theorem file_backingPath {naming : Naming φ} {load : LoadEnv ρ} {inv : Invocation}
    {disk : CString -> Option (List Byte)} {p : Process ρ}
    (h : mount naming load inv disk = .ok p) :
    naming.file ((fuseDaemonize inv.foreground p).resolve p.backingPath) =
      naming.file (p.resolve p.filename) := by
  rcases mount_ok h with ⟨_, hcwd, hbacking⟩
  have habsolute : IsAbsolute (p.resolve p.filename) := by
    apply isAbsolute_resolve
    rw [hcwd]
    exact inv.cwdAbsolute
  rw [hbacking, resolve_of_absolute (naming.absolute _ habsolute)]
  exact naming.same _ habsolute

/-- Whether `sf_deparse` still writes the file that was read. -/
theorem file_filename_iff {naming : Naming φ} {load : LoadEnv ρ} {inv : Invocation}
    {disk : CString -> Option (List Byte)} {p : Process ρ}
    (h : mount naming load inv disk = .ok p) :
    naming.file ((fuseDaemonize inv.foreground p).resolve p.filename) =
        naming.file (p.resolve p.filename) <->
      StaysPut naming inv := by
  rcases mount_ok h with ⟨hfilename, hcwd, _⟩
  rw [StaysPut, hfilename]
  cases inv.foreground with
  | true => exact iff_of_true rfl (Or.inl rfl)
  | false =>
      by_cases habsolute : IsAbsolute inv.arg
      · rw [resolve_of_absolute habsolute, resolve_of_absolute habsolute]
        exact iff_of_true rfl (Or.inr (Or.inl habsolute))
      · have hroot : (fuseDaemonize false p).cwd ++ CString.lit "/" = CString.lit "/" := by
          show CString.lit "" ++ CString.lit "/" = CString.lit "/"
          decide
        rw [resolve_of_relative habsolute, resolve_of_relative habsolute, hroot, hcwd]
        simp only [Bool.false_eq_true, habsolute, false_or]

/-- A run uses one file throughout whenever the argument keeps its meaning, and a run
that ends with the unmount does so only then. -/
theorem oneFile_iff (naming : Naming φ) (load : LoadEnv ρ) (inv : Invocation)
    (disk : CString -> Option (List Byte)) (p : Process ρ)
    (hmount : mount naming load inv disk = .ok p) :
    (StaysPut naming inv -> forall calls, OneFile naming inv.foreground calls p) ∧
      forall calls p', shfsMain naming load inv disk calls = .ok p' ->
        (OneFile naming inv.foreground calls p <-> StaysPut naming inv) := by
  have hbacking := file_backingPath hmount
  have henough : StaysPut naming inv ->
      forall calls, OneFile naming inv.foreground calls p := by
    intro hput calls
    refine ⟨?_, hbacking⟩
    intro a ha
    rcases List.mem_cons.mp ha with hparse | hsession
    · rw [hparse]
      rfl
    · rcases name_of_mem_session calls _ hsession with hname | hname
      · rw [hname, fuseDaemonize_filename]
        exact (file_filename_iff hmount).mpr hput
      · rw [hname, fuseDaemonize_backingPath]
        exact hbacking
  refine ⟨henough, ?_⟩
  intro calls p' hmain
  constructor
  · intro hone
    rcases shfsMain_ok hmount hmain with ⟨q, hrun, _⟩
    have hmem := deparse_mem_session calls _ q hrun
    rw [fuseDaemonize_filename] at hmem
    exact (file_filename_iff hmount).mp (hone.accesses _ (List.mem_cons_of_mem _ hmem))
  · intro hput
    exact henough hput calls

end Main

/-- A system without links: every name denotes its own file. -/
def plainNaming : Naming CString where
  file name := name
  realpath name := name
  absolute _ h := h
  same _ _ := rfl

def homeInvocation (arg : CString) (foreground : Bool) : Invocation where
  cwd := CString.lit "/home"
  arg := arg
  foreground := foreground
  cwdAbsolute := Or.inr rfl

def homeDisk (name : CString) : Option (List Byte) :=
  if name = CString.lit "/home/shadow.out" then some (sfDeparse [binUser]) else none

def homeProcess (arg : CString) : Process User :=
  { root := [binUser], filename := arg, backingPath := CString.lit "/home/shadow.out",
    cwd := CString.lit "/home", disk := homeDisk }

theorem mount_absolute :
    mount plainNaming plainLoad (homeInvocation (CString.lit "/home/shadow.out") false)
      homeDisk = .ok (homeProcess (CString.lit "/home/shadow.out")) :=
  rfl

theorem mount_relative :
    mount plainNaming plainLoad (homeInvocation (CString.lit "shadow.out") false)
      homeDisk = .ok (homeProcess (CString.lit "shadow.out")) :=
  rfl

def readCall : Env User × Request :=
  (plainEnv, .read (Path.of (CString.lit "sh_file") []) (fun _ => 0) [] 0 0)

/-- A background run with an absolute argument, in which the file is read. -/
theorem oneFile_absolute :
    exists p', shfsMain plainNaming plainLoad
        (homeInvocation (CString.lit "/home/shadow.out") false) homeDisk [readCall] =
          .ok p' ∧
      OneFile plainNaming false [readCall]
        (homeProcess (CString.lit "/home/shadow.out")) := by
  have h := oneFile_iff plainNaming plainLoad
    (homeInvocation (CString.lit "/home/shadow.out") false) homeDisk _ mount_absolute
  refine ⟨_, rfl, (h.2 [readCall] _ rfl).mpr ?_⟩
  exact Or.inr (Or.inl (by decide))

/-- The same with a relative argument: the unmount writes `/shadow.out`. -/
theorem not_oneFile_relative :
    mount plainNaming plainLoad (homeInvocation (CString.lit "shadow.out") false)
        homeDisk = .ok (homeProcess (CString.lit "shadow.out")) ∧
      ¬ OneFile plainNaming false ([] : List (Env User × Request))
        (homeProcess (CString.lit "shadow.out")) := by
  refine ⟨mount_relative, ?_⟩
  intro h
  have hfile := h.accesses (.deparse (CString.lit "/shadow.out")) (by decide)
  exact absurd hfile (by decide)

end ShadowFs
