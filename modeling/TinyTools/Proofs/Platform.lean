/-
When the platform information follows its lifecycle.

Where one of the backends is compiled in, it does: what a query delivers is what the
latest successful init wrote into zeroed memory, since a cleanup clears the information
for the backends that do not set every field.

The Linux build compiles none in.  `TT_PLATFORM_LINUX` is an enumerator and the
preprocessor does not know it, so init always answers that the platform is not
supported, which is right only when `sysinfo` fails as well.
-/
import TinyTools.Platform

namespace TinyTools

namespace Platform

/-- What an init is to do on an uninitialised platform: the backend's result, and what it fills in. -/
abbrev Backend := Host → TtError × TtPlatformInfo

/-- What one call is to do, `latest` being the information filled in by the latest successful init. -/
def LawfulCall (backend : Backend) (h : Host) (s : Platform) (latest : Option TtPlatformInfo)
    (c : PlatformCall) (r : TtError × Option TtPlatformInfo × Platform) : Prop :=
  match c with
  | .init =>
      (s.platformInitalized = false →
        (r.1 = .success ↔ (backend h).1 = .success) ∧
        (r.2.2.platformInitalized = true ↔ r.1 = .success)) ∧
      (s.platformInitalized = true → r.1 = .alreadyInitialized ∧ r.2.2 = s)
  | .getInfo none => True
  | .getInfo (some _) =>
      (r.1 = .success ↔ s.platformInitalized = true) ∧
      (s.platformInitalized = true → latest.isSome ∧ r.2.1 = latest)
  | .cleanup =>
      (r.1 = .success ↔ s.platformInitalized = true) ∧ r.2.2.platformInitalized = false

/-- The information filled in by the latest successful init, after one more call. -/
def nextLatest (backend : Backend) (h : Host) (latest : Option TtPlatformInfo) (c : PlatformCall)
    (result : TtError) : Option TtPlatformInfo :=
  match c with
  | .init => if result = .success then some (backend h).2 else latest
  | .cleanup | .getInfo _ => latest

/-- Every call of a run from `s` does what it is to do. -/
def LawfulRun (b : Build) (backend : Backend) :
    Platform → Option TtPlatformInfo → List (PlatformCall × Host) → Prop
  | _, _, [] => True
  | s, latest, (c, h) :: L =>
      LawfulCall backend h s latest c (platformCall b h s c) ∧
        LawfulRun b backend (platformCall b h s c).2.2
          (nextLatest backend h latest c (platformCall b h s c).1) L

/-! ### Builds with a backend -/

/-- The backend compiled in, on zeroed memory. -/
def ofBuild (b : Build) : Backend := fun h =>
  ((backendInit b h .zero 0).1, (backendInit b h .zero 0).2.1)

/-- What `tt_platform_linux_init` does on zeroed memory. -/
def ofLinux (b : Build) : Backend := fun h =>
  ((ttPlatformLinuxInit b h (some .zero) 0).1,
    (ttPlatformLinuxInit b h (some .zero) 0).2.1.getD .zero)

/-- Some backend is compiled in. -/
def Supported (b : Build) : Prop :=
  b.defined .ttPlatformLinux = true ∨ b.defined .ttPlatformArduino = true ∨
    b.defined .ttPlatformFreertos = true

/-- The cases that the preprocessor distinguishes. -/
theorem macros (b : Build) :
    b.defined .ttPlatformLinux = true ∨
      (b.defined .ttPlatformLinux = false ∧ b.defined .ttPlatformArduino = true) ∨
      (b.defined .ttPlatformLinux = false ∧ b.defined .ttPlatformArduino = false ∧
        b.defined .ttPlatformFreertos = true) ∨
      (b.defined .ttPlatformLinux = false ∧ b.defined .ttPlatformArduino = false ∧
        b.defined .ttPlatformFreertos = false) := by
  cases b.defined .ttPlatformLinux <;> cases b.defined .ttPlatformArduino <;>
    cases b.defined .ttPlatformFreertos <;> simp

theorem ofBuild_linux {b : Build} (hb : b.defined .ttPlatformLinux = true) :
    ofBuild b = ofLinux b := by
  funext h
  simp [ofBuild, ofLinux, backendInit, hb]

/-- `si` is not read before it is written. -/
theorem backendInit_si (b : Build) (h : Host) (info : TtPlatformInfo) (si : Nat) :
    (backendInit b h info si).1 = (backendInit b h info 0).1 ∧
      (backendInit b h info si).2.1 = (backendInit b h info 0).2.1 := by
  rcases macros b with hb | ⟨hl, hb⟩ | ⟨hl, ha, hb⟩ | ⟨hl, ha, hf⟩
  · simp only [backendInit, hb, if_true, ttPlatformLinuxInit]
    cases h.sysinfo with
    | _ => exact ⟨rfl, rfl⟩
  · simp [backendInit, hl, hb]
  · simp [backendInit, hl, ha, hb]
  · simp [backendInit, hl, ha, hf]

/-- A backend that fails has written nothing. -/
theorem backendInit_failed {b : Build} {h : Host} {info : TtPlatformInfo} {si : Nat}
    (hfail : (backendInit b h info si).1 ≠ .success) : (backendInit b h info si).2.1 = info := by
  rcases macros b with hb | ⟨hl, hb⟩ | ⟨hl, ha, hb⟩ | ⟨hl, ha, hf⟩
  · simp only [backendInit, hb, if_true, ttPlatformLinuxInit] at hfail ⊢
    cases hsys : h.sysinfo with
    | none => rfl
    | some totalram => simp [hsys] at hfail
  · simp [backendInit, hl, hb, ttPlatformArduinoInit] at hfail
  · simp [backendInit, hl, ha, hb, ttPlatformFreertosInit] at hfail
  · simp [backendInit, hl, ha, hf]

theorem backendCleanup_success {b : Build} (hb : Supported b) : backendCleanup b = .success := by
  rcases hb with hb | hb | hb
  · simp [backendCleanup, hb, ttPlatformLinuxCleanup]
  · simp [backendCleanup, hb, ttPlatformLinuxCleanup, ttPlatformArduinoCleanup]
  · simp [backendCleanup, hb, ttPlatformLinuxCleanup, ttPlatformArduinoCleanup,
      ttPlatformFreertosCleanup]

/-- What holds between the calls: an uninitialised platform has no information left, an initialised
one that of the latest init. -/
structure Tidy (s : Platform) (latest : Option TtPlatformInfo) : Prop where
  cleared : s.platformInitalized = false → s.platformInfo = .zero
  filled : s.platformInitalized = true → latest = some s.platformInfo

theorem Tidy.start : Tidy .zero none := ⟨fun _ => rfl, by rintro ⟨⟩⟩

/-- Init on an uninitialised platform calls the backend on zeroed memory. -/
theorem Tidy.init {b : Build} {s : Platform} {latest : Option TtPlatformInfo} (hs : Tidy s latest)
    (hno : s.platformInitalized = false) (h : Host) :
    LawfulCall (ofBuild b) h s latest .init (platformCall b h s .init) ∧
      Tidy (platformCall b h s .init).2.2
        (nextLatest (ofBuild b) h latest .init (platformCall b h s .init).1) := by
  obtain ⟨info, initialized, si⟩ := s
  cases hno
  have hzero : info = .zero := hs.cleared rfl
  subst hzero
  obtain ⟨hresult, hinfo⟩ := backendInit_si b h .zero si
  by_cases hok : (backendInit b h .zero 0).1 = .success
  · simp only [platformCall, ttPlatforInit, hresult, hinfo, hok]
    refine ⟨⟨fun _ => ⟨?_, ?_⟩, by rintro ⟨⟩⟩, ⟨by rintro ⟨⟩, fun _ => rfl⟩⟩
    · simp [ofBuild, hok]
    · simp
  · have hkept := backendInit_failed hok
    simp only [platformCall, ttPlatforInit, hresult, hinfo, hkept, ne_eq, hok, not_false_eq_true,
      if_true, Bool.false_eq_true, if_false]
    refine ⟨⟨fun _ => ⟨?_, ?_⟩, by rintro ⟨⟩⟩, ⟨fun _ => rfl, by rintro ⟨⟩⟩⟩
    · simp [ofBuild, hok]
    · simp [hok]

theorem Tidy.step {b : Build} (hb : Supported b) {s : Platform} {latest : Option TtPlatformInfo}
    (hs : Tidy s latest) (c : PlatformCall) (h : Host) :
    LawfulCall (ofBuild b) h s latest c (platformCall b h s c) ∧
      Tidy (platformCall b h s c).2.2
        (nextLatest (ofBuild b) h latest c (platformCall b h s c).1) := by
  cases hinit : s.platformInitalized with
  | false =>
      cases c with
      | init => exact hs.init hinit h
      | cleanup =>
          simp only [platformCall, ttPlatformCleanup, hinit]
          refine ⟨⟨?_, ?_⟩, hs⟩
          · simp [hinit]
          · simp [hinit]
      | getInfo info =>
          refine ⟨?_, hs⟩
          cases info with
          | none => trivial
          | some old =>
              simp only [platformCall, ttPlatformGetInfo, hinit]
              refine ⟨?_, ?_⟩
              · simp [hinit]
              · simp [hinit]
  | true =>
      cases c with
      | init =>
          simp only [platformCall, ttPlatforInit, hinit, if_true]
          refine ⟨⟨?_, fun _ => ⟨rfl, rfl⟩⟩, hs⟩
          simp [hinit]
      | cleanup =>
          simp only [platformCall, ttPlatformCleanup, hinit, backendCleanup_success hb]
          refine ⟨⟨?_, ?_⟩, ⟨fun _ => rfl, ?_⟩⟩
          · simp [hinit]
          · simp
          · simp
      | getInfo info =>
          refine ⟨?_, hs⟩
          cases info with
          | none => trivial
          | some old =>
              simp only [platformCall, ttPlatformGetInfo, hinit]
              refine ⟨?_, fun _ => ?_⟩
              · simp [hinit]
              · rw [hs.filled hinit]
                exact ⟨rfl, rfl⟩

/-- With a backend compiled in, every run is as it should be. -/
theorem lawful_of_supported {b : Build} (hb : Supported b) (L : List (PlatformCall × Host)) :
    ∀ {s : Platform} {latest : Option TtPlatformInfo}, Tidy s latest →
      LawfulRun b (ofBuild b) s latest L := by
  induction L with
  | nil => exact fun _ => trivial
  | cons e L ih =>
      intro s latest hs
      obtain ⟨hcall, hnext⟩ := hs.step hb e.1 e.2
      exact ⟨hcall, ih hnext⟩

/-- So would the Linux build be, if `TT_PLATFORM_LINUX` were defined. -/
theorem lawful_of_defined {b : Build} (hb : b.defined .ttPlatformLinux = true)
    (L : List (PlatformCall × Host)) : LawfulRun b (ofLinux b) .zero none L := by
  rw [← ofBuild_linux hb]
  exact lawful_of_supported (Or.inl hb) L Tidy.start

/-! ### The Linux build -/

/-- A build by the makefile for Linux. -/
def LinuxBuild (b : Build) : Prop := ∃ arch, b.defined = makefileLinux arch

theorem backendInit_linuxBuild {b : Build} (hb : LinuxBuild b) (h : Host) (info : TtPlatformInfo)
    (si : Nat) : backendInit b h info si = (.platformNotSupported, info, si) := by
  obtain ⟨arch, harch⟩ := hb
  simp [backendInit, harch, makefileLinux]

/-- `tt_platform_linux_init` succeeds exactly if `sysinfo` does. -/
theorem ofLinux_success {b : Build} {h : Host} :
    (ofLinux b h).1 = .success ↔ h.sysinfo ≠ none := by
  simp only [ofLinux, ttPlatformLinuxInit]
  cases h.sysinfo with
  | none => simp
  | some totalram => simp

/-- On the uninitialised platform every call leaves the state as it is, and only an init does not do
what it is to do, unless `sysinfo` fails. -/
theorem call_linuxBuild {b : Build} (hb : LinuxBuild b) {s : Platform}
    (hs : s.platformInitalized = false) (latest : Option TtPlatformInfo) (c : PlatformCall)
    (h : Host) :
    (LawfulCall (ofLinux b) h s latest c (platformCall b h s c) ↔ (c = .init → h.sysinfo = none)) ∧
      (platformCall b h s c).2.2 = s ∧
      nextLatest (ofLinux b) h latest c (platformCall b h s c).1 = latest := by
  obtain ⟨info, initialized, si⟩ := s
  cases hs
  cases c with
  | init =>
      have hcall : platformCall b h ⟨info, false, si⟩ .init
          = (.platformNotSupported, none, ⟨info, false, si⟩) := by
        simp [platformCall, ttPlatforInit, backendInit_linuxBuild hb]
      rw [hcall]
      refine ⟨?_, rfl, rfl⟩
      simp [LawfulCall, ofLinux_success]
  | cleanup =>
      refine ⟨?_, rfl, rfl⟩
      simp [LawfulCall, platformCall, ttPlatformCleanup]
  | getInfo info =>
      refine ⟨?_, rfl, rfl⟩
      cases info with
      | none => simp [LawfulCall]
      | some old => simp [LawfulCall, platformCall, ttPlatformGetInfo]

end Platform

open Platform

/--
**In the Linux build init never succeeds.** A run of the platform functions does what it
is to do, with `tt_platform_linux_init` as the backend, if and only if each init is made
while `sysinfo` fails, so that the backend would have failed as well.
-/
theorem ttPlatform_lawful_iff {b : Build} (hb : LinuxBuild b) (L : List (PlatformCall × Host)) :
    LawfulRun b (ofLinux b) .zero none L ↔
      ∀ e ∈ L, e.1 = .init → e.2.sysinfo = none := by
  have hall : ∀ (L : List (PlatformCall × Host)) s, s.platformInitalized = false →
      (LawfulRun b (ofLinux b) s none L ↔ ∀ e ∈ L, e.1 = .init → e.2.sysinfo = none) := by
    intro L
    induction L with
    | nil => simp [LawfulRun]
    | cons e L ih =>
        intro s hs
        obtain ⟨hcall, hsame, hlatest⟩ := call_linuxBuild hb hs none e.1 e.2
        rw [LawfulRun, hsame, hlatest, ih s hs, List.forall_mem_cons, hcall]
  exact hall L .zero rfl

/-- A failing `sysinfo`, and a query. -/
theorem ttPlatform_lawful_failing :
    ∃ (b : Build) (h : Host), LinuxBuild b ∧ h.sysinfo = none ∧
      LawfulRun b (ofLinux b) .zero none [(.init, h), (.getInfo (some .zero), h)] := by
  refine ⟨{ defined := makefileLinux (· = .x86_64), scThreadStackMin := 75 }, ⟨none, 4, 0, 0⟩,
    ⟨_, rfl⟩, rfl, ?_⟩
  refine (ttPlatform_lawful_iff ⟨_, rfl⟩ _).mpr ?_
  simp

/-- **An init that fails although the backend would not.** -/
theorem ttPlatform_init_unsupported :
    ∃ (b : Build) (h : Host), LinuxBuild b ∧
      (ttPlatformLinuxInit b h (some .zero) 0).1 = .success ∧
      (ttPlatforInit b h .zero).1 = .platformNotSupported ∧
      ¬ LawfulRun b (ofLinux b) .zero none [(.init, h)] := by
  refine ⟨{ defined := makefileLinux (· = .x86_64), scThreadStackMin := 75 },
    ⟨some 8000000000, 4, 0, 0⟩, ⟨_, rfl⟩, rfl, rfl, ?_⟩
  rintro ⟨⟨hinit, -⟩, -⟩
  exact absurd ((hinit rfl).1.mpr rfl) (by decide)

end TinyTools
