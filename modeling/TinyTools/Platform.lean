/-
Platform information (`tt_platform.c`) and the backends that fill it in.

Which backend `tt_platfor_init` calls is decided by the preprocessor, so a build is given
by the macros that are defined in it.  `TT_PLATFORM_LINUX` and its siblings are
enumerators of `tt_platform_type_t`; no header and no makefile defines macros of these
names.

What a call gets from the operating system is one value, `Host`, different for each call.
-/
import TinyTools.Types

namespace TinyTools

/-! ### Builds -/

/-- The macros by which a compiler names its target. -/
inductive ArchMacro : Type
  | x86_64
  | i386
  | arm
  | aarch64
  deriving DecidableEq

/-- The macros that the makefile sets, and those that `tt_platform.c` tests. -/
inductive Macro : Type
  | ttTargetLinux
  | ttTargetArduino
  | ttTargetFreertos
  | ttCapMutex
  | ttCapThreads
  | ttPlatformLinux
  | ttPlatformArduino
  | ttPlatformFreertos
  | arch (a : ArchMacro)
  deriving DecidableEq

/-- A build: what `defined` answers, and the numbers that the headers of a target set. -/
structure Build : Type where
  defined : Macro → Bool
  scThreadStackMin : Nat
  fCpu : Nat := 16000000
  ramend : Nat := 0x8FF
  flashend : Nat := 0x7FFF
  configCpuClockHz : Nat := 100000000
  configMinimalStackSize : Nat := 128
  configTotalHeapSize : Nat := 48 * 1024
  configMaxPriorities : Nat := 5

/-- The macros that the makefile defines for Linux, on any architecture. -/
def makefileLinux (arch : ArchMacro → Bool) : Macro → Bool
  | .ttTargetLinux | .ttCapMutex | .ttCapThreads => true
  | .arch a => arch a
  | .ttTargetArduino | .ttTargetFreertos | .ttPlatformLinux | .ttPlatformArduino
  | .ttPlatformFreertos => false

/-! ### The information -/

/-- `tt_platform_type_t`. -/
inductive TtPlatformType : Type
  | unknown
  | linux
  | windows
  | macos
  | arduino
  | freertos
  | baremetal
  deriving DecidableEq

/-- `tt_arch_type_t`. -/
inductive TtArchType : Type
  | unknown
  | x86
  | x64
  | arm
  | arm64
  | avr
  | riscv
  deriving DecidableEq

/-- `tt_platform_caps_t`, the flags that a backend sets. -/
def TtPlatformCap.threads : UInt32 := (1 : UInt32) <<< (0 : UInt32)
def TtPlatformCap.mutex : UInt32 := (1 : UInt32) <<< (1 : UInt32)
def TtPlatformCap.semaphore : UInt32 := (1 : UInt32) <<< (2 : UInt32)
def TtPlatformCap.tls : UInt32 := (1 : UInt32) <<< (3 : UInt32)
def TtPlatformCap.atomic : UInt32 := (1 : UInt32) <<< (4 : UInt32)
def TtPlatformCap.irq : UInt32 := (1 : UInt32) <<< (5 : UInt32)
def TtPlatformCap.timers : UInt32 := (1 : UInt32) <<< (6 : UInt32)

structure TtPlatformInfo.System : Type where
  cpuFrequency : Nat
  ramSize : Nat
  flashSize : Nat
  coreCount : UInt8
  deriving DecidableEq

structure TtPlatformInfo.Thread : Type where
  minStackSize : Nat
  maxStackSize : Nat
  maxPriority : Int
  minPriority : Int
  deriving DecidableEq

structure TtPlatformInfo.Irq : Type where
  irqLevels : UInt8
  nestedIrq : Bool
  deriving DecidableEq

/-- `tt_platform_info_t`. -/
structure TtPlatformInfo : Type where
  platformType : TtPlatformType
  archType : TtArchType
  capabilities : UInt32
  system : TtPlatformInfo.System
  thread : TtPlatformInfo.Thread
  irq : TtPlatformInfo.Irq
  deriving DecidableEq

/-- All bytes zero. -/
def TtPlatformInfo.zero : TtPlatformInfo :=
  ⟨.unknown, .unknown, 0, ⟨0, 0, 0, 0⟩, ⟨0, 0, 0, 0⟩, ⟨0, false⟩⟩

/-! ### The backends -/

/-- What the system functions return: the `totalram` that `sysinfo` fills in, `none` where it fails,
and the results of `sysconf` and `sched_get_priority_min` and `_max`. -/
structure Host : Type where
  sysinfo : Option Nat
  nprocessors : Int
  priorityMin : Int
  priorityMax : Int

/-- What `#if` finds out of the architecture. -/
def archType (b : Build) : TtArchType :=
  if b.defined (.arch .x86_64) then .x64
  else if b.defined (.arch .i386) then .x86
  else if b.defined (.arch .arm) then .arm
  else if b.defined (.arch .aarch64) then .arm64
  else .unknown

/-- `tt_platform_linux_init`: its result, the information behind the pointer, and the static
`si.totalram`. -/
def ttPlatformLinuxInit (b : Build) (h : Host) (info : Option TtPlatformInfo) (si : Nat) :
    TtError × Option TtPlatformInfo × Nat :=
  match info with
  | none => (.nullPointer, none, si)
  | some info =>
      match h.sysinfo with
      | none => (.platformInit, some info, si)
      | some totalram =>
          (.success, some {
            platformType := .linux
            archType := archType b
            capabilities := TtPlatformCap.threads ||| TtPlatformCap.mutex |||
              TtPlatformCap.semaphore ||| TtPlatformCap.tls ||| TtPlatformCap.atomic |||
              TtPlatformCap.timers
            system := ⟨0, totalram, 0, UInt8.ofInt h.nprocessors⟩
            thread := ⟨b.scThreadStackMin, 8 * 1024 * 1024, h.priorityMax, h.priorityMin⟩
            irq := ⟨0, false⟩ }, totalram)

/-- `tt_platform_arduino_init`, which sets nothing about threads. -/
def ttPlatformArduinoInit (b : Build) (info : Option TtPlatformInfo) :
    TtError × Option TtPlatformInfo :=
  match info with
  | none => (.nullPointer, none)
  | some info =>
      (.success, some { info with
        platformType := .arduino
        archType := .avr
        capabilities := TtPlatformCap.irq ||| TtPlatformCap.timers
        system := ⟨b.fCpu, b.ramend + 1, b.flashend + 1, 1⟩
        irq := ⟨1, false⟩ })

/-- `tt_platform_freertos_init`, which sets nothing about interrupts. -/
def ttPlatformFreertosInit (b : Build) (info : Option TtPlatformInfo) :
    TtError × Option TtPlatformInfo :=
  match info with
  | none => (.nullPointer, none)
  | some info =>
      (.success, some { info with
        platformType := .freertos
        archType := .unknown
        capabilities := TtPlatformCap.threads ||| TtPlatformCap.mutex |||
          TtPlatformCap.semaphore ||| TtPlatformCap.timers
        system := ⟨b.configCpuClockHz, 0, 0, 1⟩
        thread := ⟨b.configMinimalStackSize, b.configTotalHeapSize, b.configMaxPriorities - 1, 0⟩ })

def ttPlatformLinuxCleanup : TtError := .success
def ttPlatformArduinoCleanup : TtError := .success
def ttPlatformFreertosCleanup : TtError := .success

/-! ### The functions -/

/-- `platform_info`, `platform_initalized`, and the `si` of the Linux backend. -/
structure Platform : Type where
  platformInfo : TtPlatformInfo
  platformInitalized : Bool
  si : Nat

/-- At program start. -/
def Platform.zero : Platform := ⟨.zero, false, 0⟩

/-- The `#if` chain of `tt_platfor_init`, on `&platform_info`. -/
def backendInit (b : Build) (h : Host) (info : TtPlatformInfo) (si : Nat) :
    TtError × TtPlatformInfo × Nat :=
  if b.defined .ttPlatformLinux then
    let r := ttPlatformLinuxInit b h (some info) si
    (r.1, r.2.1.getD info, r.2.2)
  else if b.defined .ttPlatformArduino then
    let r := ttPlatformArduinoInit b (some info)
    (r.1, r.2.getD info, si)
  else if b.defined .ttPlatformFreertos then
    let r := ttPlatformFreertosInit b (some info)
    (r.1, r.2.getD info, si)
  else (.platformNotSupported, info, si)

/-- The one of `tt_platform_cleanup`. -/
def backendCleanup (b : Build) : TtError :=
  if b.defined .ttPlatformLinux then ttPlatformLinuxCleanup
  else if b.defined .ttPlatformArduino then ttPlatformArduinoCleanup
  else if b.defined .ttPlatformFreertos then ttPlatformFreertosCleanup
  else .platformNotSupported

/-- `tt_platfor_init`. -/
def ttPlatforInit (b : Build) (h : Host) (s : Platform) : TtError × Platform :=
  if s.platformInitalized then (.alreadyInitialized, s) else
  let (err, info, si) := backendInit b h s.platformInfo s.si
  if err ≠ .success then (err, { s with platformInfo := info, si := si }) else
  (.success, ⟨info, true, si⟩)

/-- `tt_platform_cleanup`. -/
def ttPlatformCleanup (b : Build) (s : Platform) : TtError × Platform :=
  if !s.platformInitalized then (.notInitialized, s) else
  let err := backendCleanup b
  if err ≠ .success then (err, s) else
  (.success, { s with platformInfo := .zero, platformInitalized := false })

/-- `tt_platform_get_info`, with what `info` points to before and after. -/
def ttPlatformGetInfo (info : Option TtPlatformInfo) (s : Platform) :
    TtError × Option TtPlatformInfo :=
  if !s.platformInitalized then (.notInitialized, info) else
  match info with
  | none => (.nullPointer, none)
  | some _ => (.success, some s.platformInfo)

/-- The functions of the module; `getInfo` with what its pointer designates. -/
inductive PlatformCall : Type
  | init
  | cleanup
  | getInfo (info : Option TtPlatformInfo)

/-- One call: its result, what the pointer of `getInfo` designates afterwards, and the state. -/
def platformCall (b : Build) (h : Host) (s : Platform) :
    PlatformCall → TtError × Option TtPlatformInfo × Platform
  | .init => ((ttPlatforInit b h s).1, none, (ttPlatforInit b h s).2)
  | .cleanup => ((ttPlatformCleanup b s).1, none, (ttPlatformCleanup b s).2)
  | .getInfo info => ((ttPlatformGetInfo info s).1, (ttPlatformGetInfo info s).2, s)

end TinyTools
