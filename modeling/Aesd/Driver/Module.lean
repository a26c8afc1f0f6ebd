/-
  Aesd.Driver.Module

  The module from `insmod` to `rmmod`, as often as anybody likes.  The heap is
  the kernel's and outlives the module, and so do the device numbers and the
  character devices registered with it; the static variables of `main.c` do
  not.

  `moduleStep` runs `aesd_init_module`, the file operations and
  `aesd_cleanup_module`; `absModuleStep` forgets everything but the journal at
  a load.  Of the kernel it is taken that it runs the module's code only where
  it may: files are opened while the module is loaded, calls are made on open
  files, and since `cdev.owner` and `aesd_fops.owner` are the module, it is not
  unloaded under an open file.
-/
import Aesd.Driver.Ownership

namespace Aesd.Driver

open Aesd.Lib

/-! ## Device numbers -/

/-- `dev_t`. -/
abbrev DevT := UInt32

/-- `MAJOR(dev)`, with `MINORBITS` 20. -/
def MAJOR (dev : DevT) : UInt32 := dev >>> 20

/-- `MKDEV(ma, mi)`. -/
def MKDEV (ma mi : UInt32) : DevT := ma <<< 20 ||| mi

/-- A major that `alloc_chrdev_region` hands out; the kernel has 512. -/
abbrev Major := { n : UInt32 // n < 512 }

/-- An error of the kernel, as it returns it. -/
abbrev Errno := { e : Int // e < 0 ∧ -4096 < e }

/-- What a load meets: the major it is given, or the error, and the error of `cdev_add`. -/
structure LoadEnv where
  region : Except Errno Major
  cdevAdd : Option Errno

/-- The number of a major is made of its major again. -/
theorem mkdev_major (major : Major) : MKDEV (MAJOR (MKDEV major 0)) 0 = MKDEV major 0 := by
  obtain ⟨n, hn⟩ := major
  have hlt : n.toNat < 512 := UInt32.lt_iff_toNat_lt.mp hn
  apply UInt32.toNat_inj.mp
  simp only [MKDEV, MAJOR, UInt32.or_zero, UInt32.toNat_shiftLeft, UInt32.toNat_shiftRight,
    UInt32.reduceToNat, Nat.reduceMod, Nat.shiftLeft_eq, Nat.shiftRight_eq_div_pow]
  omega

/-! ## The machine -/

/-- The static variables of `main.c`, with the number that `cdev_add` stores in the `cdev`. -/
structure Statics where
  aesdMajor : UInt32
  aesdMinor : UInt32
  aesdDevice : AesdDev
  cdevDev : Option DevT

/-- As the kernel loads them. -/
def Statics.init : Statics := ⟨0, 0, ⟨aesdCircularBufferInit, .zero, false⟩, none⟩

/-- A loaded module and the files open on its device. -/
structure Loaded where
  vars : Statics
  files : List File
  fPos : File → Int

/-- The kernel with or without the module: its memory, and of the device numbers and devices
    registered with it those of this driver. -/
structure Machine where
  heap : Heap Byte
  regions : List DevT
  cdevs : List DevT
  loaded : Option Loaded

/-- A machine that never had the module. -/
def Machine.init : Machine := ⟨.empty, [], [], none⟩

namespace Machine

/-- `alloc_chrdev_region(&dev, minor, 1, ..)` on a `dev` of 0: the result and `dev`. -/
def allocChrdevRegion (region : Except Errno Major) (minor : UInt32) (m : Machine) :
    (Int × DevT) × Machine :=
  match region with
  | .error e => ((e, 0), m)
  | .ok major => ((0, MKDEV major minor), { m with regions := MKDEV major minor :: m.regions })

def unregisterChrdevRegion (dev : DevT) (m : Machine) : Machine :=
  { m with regions := m.regions.erase dev }

/-- `cdev_init` and `cdev_add` of the device, with the number of the static variables. -/
def aesdSetupCdev (cdevAdd : Option Errno) (vars : Statics) (m : Machine) :
    Int × Statics × Machine :=
  let devno := MKDEV vars.aesdMajor vars.aesdMinor
  match cdevAdd with
  | some err => (err, vars, m)
  | none => (0, { vars with cdevDev := some devno }, { m with cdevs := devno :: m.cdevs })

def cdevDel (cdevDev : Option DevT) (m : Machine) : Machine :=
  match cdevDev with
  | none => m
  | some dev => { m with cdevs := m.cdevs.erase dev }

def aesdInitModule (env : LoadEnv) (vars : Statics) (m : Machine) : Int × Statics × Machine :=
  let ((result, dev), m) := m.allocChrdevRegion env.region vars.aesdMinor
  -- the major is stored before the result is looked at
  let vars := { vars with aesdMajor := MAJOR dev }
  if result < 0 then (result, vars, m)
  else
    let vars := { vars with aesdDevice := Driver.aesdInitModule.device, cdevDev := none }
    let (result, vars, m) := m.aesdSetupCdev env.cdevAdd vars
    if result ≠ 0 then (result, vars, m.unregisterChrdevRegion dev)
    else (result, vars, m)

def aesdCleanupModule (vars : Statics) (m : Machine) : Option Machine := do
  let devno := MKDEV vars.aesdMajor vars.aesdMinor
  let m := m.cdevDel vars.cdevDev
  let heap ← Driver.aesdCleanupModule ⟨vars.aesdDevice, m.heap⟩
  return { m with heap }.unregisterChrdevRegion devno

end Machine

/-! ## Loads, calls and unloads -/

inductive ModuleEvent where
  | insmod (env : LoadEnv)
  | openFile (f : File)
  | call (c : Call)
  | release (f : File)
  | rmmod

/-- One event, by the code of the driver; `none` also for what the kernel does not let happen. -/
def moduleStep (K : Kernel) (m : Machine) (e : ModuleEvent) : Option (Answer × Machine) :=
  match m.loaded, e with
  | none, .insmod env =>
    let (result, vars, m) := m.aesdInitModule env .init
    -- a module whose load fails is gone, with its variables
    some (⟨result, []⟩,
      { m with loaded := if result = 0 then some ⟨vars, [], fun _ => 0⟩ else none })
  | some l, .openFile f =>
    -- `aesd_open` stores no position, and a new file is at 0
    if f ∈ l.files then none
    else some (⟨0, []⟩,
      { m with loaded := some { l with files := f :: l.files, fPos := setPos l.fPos f 0 } })
  | some l, .call c =>
    if c.request.file ∈ l.files then
      (step K ⟨⟨l.vars.aesdDevice, m.heap⟩, l.fPos⟩ c).map fun r =>
        (r.1, { m with
          heap := r.2.driver.heap
          loaded := some { l with
            vars := { l.vars with aesdDevice := r.2.driver.device }
            fPos := r.2.fPos } })
    else none
  | some l, .release f =>
    if f ∈ l.files then
      some (⟨0, []⟩, { m with loaded := some { l with files := l.files.erase f } })
    else none
  | some l, .rmmod =>
    if l.files = [] then
      (m.aesdCleanupModule l.vars).map fun m => (⟨0, []⟩, { m with loaded := none })
    else none
  | _, _ => none

/-! ## The abstract module -/

/-- A loaded module: its major, its open files, and the abstract device. -/
structure AbsLoaded where
  major : Major
  files : List File
  system : AbsSystem

/-- What a load makes of no module, with its answer. -/
def absLoad (env : LoadEnv) : Answer × Option AbsLoaded :=
  match env.region, env.cdevAdd with
  | .error e, _ => (⟨e, []⟩, none)
  | .ok _, some e => (⟨e, []⟩, none)
  | .ok major, none => (⟨0, []⟩, some ⟨major, [], .init⟩)

/-- One event, on the abstract module. -/
def absModuleStep (K : Kernel) (a : Option AbsLoaded) (e : ModuleEvent) :
    Answer × Option AbsLoaded :=
  match a, e with
  | none, .insmod env => absLoad env
  | some l, .openFile f =>
    (⟨0, []⟩, some { l with
      files := f :: l.files, system := { l.system with fPos := setPos l.system.fPos f 0 } })
  | some l, .call c =>
    ((absStep K l.system c).1, some { l with system := (absStep K l.system c).2 })
  | some l, .release f => (⟨0, []⟩, some { l with files := l.files.erase f })
  | some _, .rmmod => (⟨0, []⟩, none)
  | _, _ => (⟨0, []⟩, a)

/-- The kernel lets the event happen, and a call has a defined result. -/
def ModuleOk (K : Kernel) (a : Option AbsLoaded) (e : ModuleEvent) : Prop :=
  match a, e with
  | none, .insmod _ => True
  | some l, .openFile f => f ∉ l.files
  | some l, .call c => c.request.file ∈ l.files ∧ Defined K l.system c
  | some l, .release f => f ∈ l.files
  | some l, .rmmod => l.files = []
  | _, _ => False

/-! ## The machine stands for the abstract module -/

/-- No module: nothing is registered, and no memory is held. -/
structure Absent (m : Machine) : Prop where
  loaded_eq : m.loaded = none
  regions_eq : m.regions = []
  cdevs_eq : m.cdevs = []
  owned : m.heap.Owned []

/-- The module `l` is loaded: the number of its major is registered and its device is live,
    both under the number that the variables give. -/
structure Present (K : Kernel) (m : Machine) (a : AbsLoaded) (l : Loaded) : Prop where
  loaded_eq : m.loaded = some l
  files_eq : l.files = a.files
  devno_eq : MKDEV l.vars.aesdMajor l.vars.aesdMinor = MKDEV a.major 0
  cdevDev_eq : l.vars.cdevDev = some (MKDEV a.major 0)
  regions_eq : m.regions = [MKDEV a.major 0]
  cdevs_eq : m.cdevs = [MKDEV a.major 0]
  system : SystemRep K ⟨⟨l.vars.aesdDevice, m.heap⟩, l.fPos⟩ a.system

def MachineRep (K : Kernel) (m : Machine) : Option AbsLoaded → Prop
  | none => Absent m
  | some a => ∃ l, Present K m a l

theorem absent_init : Absent .init := ⟨rfl, rfl, rfl, Heap.owned_empty⟩

theorem machineRep_init (K : Kernel) : MachineRep K .init none := absent_init

theorem owned_of_dead {heap : Heap Byte} (h : ∀ p, heap.block p = none) : heap.Owned [] :=
  { fresh := fun p _ => h p
    nodup := List.nodup_nil
    startsWith := fun _ hx => absurd hx List.not_mem_nil
    live := fun p hp => absurd (h p) hp }

/-- A zeroed device stands for the empty journal, whatever memory was used before. -/
theorem rep_loaded (K : Kernel) {heap : Heap Byte} (h : heap.Owned []) :
    Rep K ⟨aesdInitModule.device, heap⟩ .empty := by
  obtain ⟨es, ws, hinit⟩ := rep_init K
  have hes : es = [] := List.length_eq_zero_iff.mp hinit.length_eq
  have hws : ws = [] := by
    have htexts : ws.map Prod.snd = [] := hinit.texts
    exact List.map_eq_nil_iff.mp htexts
  subst hes hws
  exact ⟨[], [], { hinit with owned := h }⟩

variable {K : Kernel} {m : Machine} {a : AbsLoaded} {l : Loaded}

theorem aesdInitModule_noRegion (m : Machine) (vars : Statics) (e : Errno)
    (cdevAdd : Option Errno) :
    m.aesdInitModule ⟨.error e, cdevAdd⟩ vars = (e.val, { vars with aesdMajor := MAJOR 0 }, m) := by
  have hneg : e.val < 0 := e.property.1
  exact if_pos hneg

/-- Whatever the variables were, but for the minor, which is 0 from the start. -/
def loadedVars (major : Major) : Statics :=
  ⟨MAJOR (MKDEV major 0), 0, Driver.aesdInitModule.device, some (MKDEV major 0)⟩

theorem aesdInitModule_noCdev (m : Machine) (major : Major) (e : Errno) :
    m.aesdInitModule ⟨.ok major, some e⟩ .init =
      (e.val, { loadedVars major with cdevDev := none }, m) := by
  have hne : e.val ≠ 0 := Int.ne_of_lt e.property.1
  have herase : (MKDEV major 0 :: m.regions).erase (MKDEV major 0) = m.regions :=
    List.erase_cons_head ..
  have hunregister : Machine.unregisterChrdevRegion (MKDEV major 0)
      { m with regions := MKDEV major 0 :: m.regions } = m := by
    rw [Machine.unregisterChrdevRegion]
    dsimp only
    rw [herase]
  refine (if_pos hne).trans ?_
  exact congrArg (fun m' => (e.val, ({ loadedVars major with cdevDev := none } : Statics), m'))
    hunregister

theorem aesdInitModule_loaded (m : Machine) (major : Major) :
    m.aesdInitModule ⟨.ok major, none⟩ .init = (0, loadedVars major,
      { m with regions := MKDEV major 0 :: m.regions, cdevs := MKDEV major 0 :: m.cdevs }) := by
  have hdevno : MKDEV (MAJOR (MKDEV major Statics.init.aesdMinor)) Statics.init.aesdMinor =
      MKDEV major 0 := mkdev_major major
  simp only [Machine.aesdInitModule, Machine.allocChrdevRegion, Machine.aesdSetupCdev, hdevno]
  rfl

/-- A load that fails leaves the machine as it was, and one that succeeds loads the module. -/
theorem Absent.insmod (h : Absent m) (env : LoadEnv) :
    ∃ m', moduleStep K m (.insmod env) = some ((absLoad env).1, m') ∧
      MachineRep K m' (absLoad env).2 := by
  obtain ⟨region, cdevAdd⟩ := env
  simp only [moduleStep, h.loaded_eq]
  cases region with
  | error e =>
    rw [aesdInitModule_noRegion]
    refine ⟨_, rfl, ?_⟩
    exact { h with loaded_eq := if_neg (Int.ne_of_lt e.property.1) }
  | ok major =>
    cases cdevAdd with
    | some e =>
      rw [aesdInitModule_noCdev]
      refine ⟨_, rfl, ?_⟩
      exact { h with loaded_eq := if_neg (Int.ne_of_lt e.property.1) }
    | none =>
      rw [aesdInitModule_loaded]
      refine ⟨_, rfl, ⟨loadedVars major, [], fun _ => 0⟩, ?_⟩
      exact {
        loaded_eq := rfl
        files_eq := rfl
        devno_eq := mkdev_major major
        cdevDev_eq := rfl
        regions_eq := congrArg _ h.regions_eq
        cdevs_eq := congrArg _ h.cdevs_eq
        system := { systemRep_init K with driver := rep_loaded K h.owned } }

/-- An unload gives back everything: the device, the number, and every buffer. -/
theorem Present.rmmod (h : Present K m a l) (hclosed : a.files = []) :
    ∃ m', moduleStep K m .rmmod = some (⟨0, []⟩, m') ∧ Absent m' := by
  obtain ⟨heap, hclean, hdead, -⟩ := h.system.driver.buffersOwned.cleanup
  simp only [moduleStep, h.loaded_eq, h.files_eq, if_pos hclosed, Machine.aesdCleanupModule,
    h.cdevDev_eq, Machine.cdevDel]
  simp only [hclean, Option.bind_eq_bind, Option.bind_some, Option.pure_def, Option.map_some,
    Machine.unregisterChrdevRegion, h.devno_eq, h.regions_eq, h.cdevs_eq, List.erase_cons_head]
  exact ⟨_, rfl, rfl, rfl, rfl, owned_of_dead hdead⟩

theorem Present.openFile (h : Present K m a l) {f : File} (hnew : f ∉ a.files) :
    ∃ m', moduleStep K m (.openFile f) = some (⟨0, []⟩, m') ∧
      MachineRep K m' (absModuleStep K (some a) (.openFile f)).2 := by
  simp only [moduleStep, h.loaded_eq, h.files_eq, if_neg hnew]
  have hzero : IsPos 0 := ⟨Int.le_refl 0, Int.pow_pos (by decide)⟩
  exact ⟨_, rfl, _, { h with
    loaded_eq := rfl
    files_eq := rfl
    system := h.system.setPos f hzero }⟩

theorem Present.release (h : Present K m a l) {f : File} (hopen : f ∈ a.files) :
    ∃ m', moduleStep K m (.release f) = some (⟨0, []⟩, m') ∧
      MachineRep K m' (absModuleStep K (some a) (.release f)).2 := by
  simp only [moduleStep, h.loaded_eq, h.files_eq, if_pos hopen]
  exact ⟨_, rfl, _, { h with loaded_eq := rfl, files_eq := rfl }⟩

theorem Present.call (h : Present K m a l) {c : Call} (hopen : c.request.file ∈ a.files)
    (hdef : Defined K a.system c) :
    ∃ m', moduleStep K m (.call c) = some ((absStep K a.system c).1, m') ∧
      MachineRep K m' (absModuleStep K (some a) (.call c)).2 := by
  obtain ⟨s', hstep, hrep⟩ := step_refines c h.system hdef
  simp only [moduleStep, h.loaded_eq, h.files_eq, if_pos hopen, hstep, Option.map_some]
  exact ⟨_, rfl, _, { h with loaded_eq := rfl, files_eq := rfl, system := hrep }⟩

theorem moduleStep_refines {x : Option AbsLoaded} (h : MachineRep K m x) (e : ModuleEvent)
    (hok : ModuleOk K x e) :
    ∃ m', moduleStep K m e = some ((absModuleStep K x e).1, m') ∧
      MachineRep K m' (absModuleStep K x e).2 := by
  cases x with
  | none =>
    cases e with
    | insmod env => exact Absent.insmod h env
    | openFile f => cases hok
    | call c => cases hok
    | release f => cases hok
    | rmmod => cases hok
  | some a =>
    obtain ⟨l, h⟩ := h
    cases e with
    | insmod env => cases hok
    | openFile f => exact h.openFile hok
    | call c => exact h.call hok.1 hok.2
    | release f => exact h.release hok
    | rmmod => exact h.rmmod hok

/-- Nothing else happens. -/
theorem moduleStep_undefined {x : Option AbsLoaded} (h : MachineRep K m x) (e : ModuleEvent)
    (hno : ¬ ModuleOk K x e) : moduleStep K m e = none := by
  cases x with
  | none =>
    have hloaded : m.loaded = none := h.loaded_eq
    cases e with
    | insmod env => exact absurd trivial hno
    | openFile f => simp only [moduleStep, hloaded]
    | call c => simp only [moduleStep, hloaded]
    | release f => simp only [moduleStep, hloaded]
    | rmmod => simp only [moduleStep, hloaded]
  | some a =>
    obtain ⟨l, h⟩ := h
    cases e with
    | insmod env => simp only [moduleStep, h.loaded_eq]
    | openFile f =>
      simp only [moduleStep, h.loaded_eq, h.files_eq]
      exact if_pos (Classical.not_not.mp hno)
    | call c =>
      simp only [moduleStep, h.loaded_eq, h.files_eq]
      by_cases hopen : c.request.file ∈ a.files
      · rw [if_pos hopen, step_undefined c h.system fun hdef => hno ⟨hopen, hdef⟩]
        rfl
      · exact if_neg hopen
    | release f =>
      simp only [moduleStep, h.loaded_eq, h.files_eq]
      exact if_neg hno
    | rmmod =>
      simp only [moduleStep, h.loaded_eq, h.files_eq]
      exact if_neg hno

/-! ## Whole runs -/

/-- The abstract module after a list of events. -/
def moduleAfter (K : Kernel) (es : List ModuleEvent) : Option AbsLoaded :=
  (absRun (absModuleStep K) none es).2

theorem module_run_follows {es : List ModuleEvent} {outs : List Answer}
    (hrun : run (moduleStep K) .init es = some (outs, m)) :
    Allowed (absModuleStep K) (ModuleOk K) none es ∧
      outs = (absRun (absModuleStep K) none es).1 ∧ MachineRep K m (moduleAfter K es) :=
  run_lockstep (R := MachineRep K) (fun _ _ e h hok => moduleStep_refines h e hok)
    (fun _ _ e h hno => moduleStep_undefined h e hno) (machineRep_init K) hrun

/-- Loads, failed loads, calls on any files and unloads, in any order: with the events that the
    kernel lets happen, and no write without a last byte, the run is defined and gives the
    answers of the abstract module, and no other run is. -/
theorem module_run_iff {es : List ModuleEvent} {outs : List Answer} :
    (∃ m, run (moduleStep K) .init es = some (outs, m)) ↔
      Allowed (absModuleStep K) (ModuleOk K) none es ∧
        outs = (absRun (absModuleStep K) none es).1 := by
  refine ⟨?_, ?_⟩
  · rintro ⟨m, hrun⟩
    obtain ⟨hall, houts, -⟩ := module_run_follows hrun
    exact ⟨hall, houts⟩
  · rintro ⟨hall, rfl⟩
    obtain ⟨m, hrun, -⟩ := run_total (R := MachineRep K)
      (fun _ _ e h hok => moduleStep_refines h e hok) (machineRep_init K) hall
    exact ⟨m, hrun⟩

/-- After any run without the module nothing of it is left: no number, no device, no buffer.
    With it exactly its number and its device are registered, its buffers are the only
    ones, and with all files closed it can be unloaded. -/
theorem module_leaves_nothing {es : List ModuleEvent} {outs : List Answer}
    (hrun : run (moduleStep K) .init es = some (outs, m)) :
    (m.loaded = none → m.regions = [] ∧ m.cdevs = [] ∧ ∀ p, m.heap.block p = none) ∧
      ∀ l, m.loaded = some l → ∃ major : Major, m.regions = [MKDEV major 0] ∧
        m.cdevs = [MKDEV major 0] ∧ BuffersOwned ⟨l.vars.aesdDevice, m.heap⟩ ∧
        (l.files = [] → ∃ m', moduleStep K m .rmmod = some (⟨0, []⟩, m') ∧ m'.loaded = none) := by
  obtain ⟨-, -, hrep⟩ := module_run_follows hrun
  cases hx : moduleAfter K es with
  | none =>
    rw [hx] at hrep
    obtain ⟨hloaded, hregions, hcdevs, howned⟩ := hrep
    refine ⟨fun _ => ⟨hregions, hcdevs, fun p => ?_⟩, fun l hl => ?_⟩
    · exact Classical.not_not.mp fun hne => absurd (howned.live p hne) List.not_mem_nil
    · rw [hloaded] at hl
      cases hl
  | some a =>
    rw [hx] at hrep
    obtain ⟨l, h⟩ := hrep
    refine ⟨fun hnone => ?_, fun l' hl => ?_⟩
    · rw [h.loaded_eq] at hnone
      cases hnone
    · rw [h.loaded_eq] at hl
      obtain rfl := Option.some.inj hl
      refine ⟨a.major, h.regions_eq, h.cdevs_eq, h.system.driver.buffersOwned, fun hclosed => ?_⟩
      obtain ⟨m', hstep, habsent⟩ := h.rmmod (h.files_eq ▸ hclosed)
      exact ⟨m', hstep, habsent.loaded_eq⟩

/-- A load without a device, one that succeeds, a line, half a line, and the unload. -/
def loadTwice : List ModuleEvent :=
  [.insmod ⟨.ok ⟨240, by decide⟩, some ⟨-ENOMEM, by decide⟩⟩,
    .insmod ⟨.ok ⟨241, by decide⟩, none⟩, .openFile 0,
    .call ⟨.write 0 (vfsBuf [97, newline]), .calm⟩, .call ⟨.write 0 (vfsBuf [98]), .calm⟩,
    .release 0, .rmmod]

theorem loadTwice_leaves_nothing :
    ∃ outs m, run (moduleStep .page) .init loadTwice = some (outs, m) ∧ m.regions = [] ∧
      m.cdevs = [] ∧ ∀ p, m.heap.block p = none := by
  have hmap : (run (moduleStep .page) .init loadTwice).map (fun x => x.2.loaded.isNone) =
      some true := by decide
  obtain ⟨⟨outs, m⟩, hrun, hnone⟩ := Option.map_eq_some_iff.mp hmap
  exact ⟨outs, m, hrun, (module_leaves_nothing hrun).1 (Option.isNone_iff_eq_none.mp hnone)⟩

/-- Two machines that stand for the same module give the same answers for ever. -/
theorem module_run_congr {m' : Machine} {x : Option AbsLoaded} (h : MachineRep K m x)
    (h' : MachineRep K m' x) (es : List ModuleEvent) :
    (run (moduleStep K) m es).map Prod.fst = (run (moduleStep K) m' es).map Prod.fst := by
  apply run_congr (R := fun m m' => ∃ x, MachineRep K m x ∧ MachineRep K m' x) ?_ ⟨x, h, h'⟩
  rintro m m' e ⟨x, h, h'⟩
  by_cases hok : ModuleOk K x e
  · obtain ⟨n, hstep, hn⟩ := moduleStep_refines h e hok
    obtain ⟨n', hstep', hn'⟩ := moduleStep_refines h' e hok
    exact .inr ⟨_, n, n', hstep, hstep', _, hn, hn'⟩
  · exact .inl ⟨moduleStep_undefined h e hok, moduleStep_undefined h' e hok⟩

/-- A module that was unloaded, or never loaded after all, comes back as new: whatever was done
    before, all that follows is answered as on a machine that never had it. -/
theorem module_comes_back_new {es : List ModuleEvent} {outs : List Answer}
    (hrun : run (moduleStep K) .init es = some (outs, m)) (hgone : m.loaded = none)
    (later : List ModuleEvent) :
    (run (moduleStep K) m later).map Prod.fst =
      (run (moduleStep K) .init later).map Prod.fst := by
  obtain ⟨-, -, hrep⟩ := module_run_follows hrun
  cases hx : moduleAfter K es with
  | none =>
    rw [hx] at hrep
    exact module_run_congr hrep (machineRep_init K) later
  | some a =>
    rw [hx] at hrep
    obtain ⟨l, h⟩ := hrep
    rw [h.loaded_eq] at hgone
    cases hgone

theorem loadTwice_comes_back_new :
    ∃ outs m, run (moduleStep .page) .init loadTwice = some (outs, m) ∧
      (run (moduleStep .page) m loadTwice).map Prod.fst = some outs := by
  have hmap : (run (moduleStep .page) .init loadTwice).map (fun x => x.2.loaded.isNone) =
      some true := by decide
  obtain ⟨⟨outs, m⟩, hrun, hnone⟩ := Option.map_eq_some_iff.mp hmap
  refine ⟨outs, m, hrun, ?_⟩
  rw [module_comes_back_new hrun (Option.isNone_iff_eq_none.mp hnone), hrun]
  rfl

end Aesd.Driver
