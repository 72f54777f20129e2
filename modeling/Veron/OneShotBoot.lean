/-
veron-boot: the chainloader that takes a one-shot command line from a marker
file on the ESP, and successive boots of the same medium.
-/
import Mathlib.Data.List.Basic

namespace Veron.OneShotBoot

abbrev Status := UInt64

def EFI_SUCCESS : Status := 0

def EFI_LOAD_ERROR : Status := 0x8000000000000001

def EFI_NOT_FOUND : Status := 0x800000000000000e

/-- EFI_WARN_DELETE_FAILURE: the handle was closed, the file was not deleted. -/
def EFI_WARN_DELETE_FAILURE : Status := 2

/-- The sign bit marks an error; warnings are positive. -/
def isError (s : Status) : Bool := 0x8000000000000000 ≤ s

/-- What the firmware answers in the course of one boot. -/
structure Firmware where
  handleSelf : Status
  handleVolume : Status
  openVolume : Status
  openMarker : Status
  infoMarker : Status
  allocMarker : Status
  readMarker : Status
  /-- how many bytes the read of the marker brings -/
  readLength : ℕ
  deleteMarker : Status
  allocCmd : Status
  openKernel : Status
  infoKernel : Status
  allocKernel : Status
  readKernel : Status
  loadImage : Status
  handleImage : Status

/-- A call whose error ends the function it is made in. -/
def call (s : Status) : Except Status Unit := if isError s then .error s else .ok ()

/-- `\EFI\veron\once.cmdline` on the ESP. -/
abbrev Marker := Option (List UInt8)

/-- What a kernel is started with. -/
structure LoadOptions where
  options : List UInt16
  size : UInt32
deriving DecidableEq

inductive Outcome where
  | halted (s : Status)
  | started (options : Option LoadOptions)
deriving DecidableEq

def openEspRoot (fw : Firmware) : Except Status Unit := do
  call fw.handleSelf
  call fw.handleVolume
  call fw.openVolume

/-- `read_file` of the kernel. -/
def readKernelFile (fw : Firmware) : Except Status Unit := do
  call fw.openKernel
  call fw.infoKernel
  call fw.allocKernel
  call fw.readKernel

/-- The part of `take_marker` before the delete; an empty marker is not read. -/
def readMarkerFile (fw : Firmware) (bytes : List UInt8) : Except Status (List UInt8) := do
  call fw.openMarker
  call fw.infoMarker
  if bytes = [] then return []
  call fw.allocMarker
  call fw.readMarker
  return bytes.take fw.readLength

/-- Trailing newlines, carriage returns and zero bytes do not count. -/
def trim (raw : List UInt8) : List UInt8 :=
  (raw.reverse.dropWhile fun c => c = 0x0a ∨ c = 0x0d ∨ c = 0).reverse

def widen (b : List UInt8) : List UInt16 := b.map UInt8.toUInt16 ++ [0]

/-- What is on the ESP after Delete: the marker, unless it reports success. -/
def afterDelete (fw : Firmware) (bytes : List UInt8) : Marker :=
  if fw.deleteMarker = EFI_SUCCESS then none else some bytes

/-- The marker left, and the command line taken.  A file that is not there is not
opened. -/
def takeMarker (fw : Firmware) : Marker → Marker × Except Status (List UInt16)
  | none => (none, .error EFI_NOT_FOUND)
  | some bytes =>
      match readMarkerFile fw bytes with
      | .error s => (some bytes, .error s)
      | .ok raw =>
          -- the status of Delete is not looked at
          (afterDelete fw bytes, (call fw.allocCmd).map fun _ => widen (trim raw))

def efiMain (fw : Firmware) (marker : Marker) : Marker × Outcome :=
  match openEspRoot fw with
  | .error _ => (marker, .halted EFI_LOAD_ERROR)
  | .ok _ =>
      let (marker', taken) := takeMarker fw marker
      match readKernelFile fw, call fw.loadImage with
      | .error _, _ => (marker', .halted EFI_LOAD_ERROR)
      | .ok _, .error s => (marker', .halted s)
      | .ok _, .ok _ =>
          let options := match taken, call fw.handleImage with
            | .ok cmd, .ok _ => some ⟨cmd, UInt32.ofNat (cmd.length * 2)⟩
            | _, _ => none
          (marker', .started options)

attribute [local simp] takeMarker efiMain

/-- What successive boots of a medium come to. -/
def boots : Marker → List Firmware → List Outcome
  | _, [] => []
  | marker, fw :: rest =>
      let (marker', outcome) := efiMain fw marker
      outcome :: boots marker' rest

theorem boots_cons (marker : Marker) (fw : Firmware) (rest : List Firmware) :
    boots marker (fw :: rest) =
      (efiMain fw marker).2 :: boots (efiMain fw marker).1 rest := rfl

/-- A kernel was started with a command line of its own. -/
def Outcome.handed : Outcome → Bool
  | .started (some _) => true
  | _ => false

/-- The firmware lets a boot with this marker get as far as starting a kernel
with its command line, whatever Delete does. -/
def Firmware.HandsOver (fw : Firmware) (bytes : List UInt8) : Prop :=
  openEspRoot fw = .ok () ∧ (∃ raw, readMarkerFile fw bytes = .ok raw) ∧
    call fw.allocCmd = .ok () ∧ readKernelFile fw = .ok () ∧ call fw.loadImage = .ok () ∧
    call fw.handleImage = .ok ()

/-- Without a marker no boot has a command line to hand over. -/
theorem efiMain_none (fw : Firmware) :
    (efiMain fw none).1 = none ∧ (efiMain fw none).2.handed = false := by
  rw [efiMain, takeMarker]
  cases openEspRoot fw with
  | error s => exact ⟨rfl, rfl⟩
  | ok u =>
      cases readKernelFile fw with
      | error s => exact ⟨rfl, rfl⟩
      | ok u =>
          cases call fw.loadImage with
          | error s => exact ⟨rfl, rfl⟩
          | ok u => exact ⟨rfl, rfl⟩

/-- A boot hands the command line over exactly when the firmware lets it. -/
theorem handed_iff (fw : Firmware) (bytes : List UInt8) :
    (efiMain fw (some bytes)).2.handed = true ↔ fw.HandsOver bytes := by
  rw [efiMain, takeMarker, Firmware.HandsOver]
  cases openEspRoot fw with
  | error s => simp [Outcome.handed]
  | ok u =>
      cases readKernelFile fw with
      | error s => simp [Outcome.handed]
      | ok u =>
          cases call fw.loadImage with
          | error s => simp [Outcome.handed]
          | ok u =>
              cases readMarkerFile fw bytes with
              | error s => simp [Outcome.handed]
              | ok raw =>
                  cases call fw.allocCmd with
                  | error s => simp [Outcome.handed, Except.map]
                  | ok u => cases call fw.handleImage <;> simp [Outcome.handed, Except.map]

/-- Once the marker has been read it is up to Delete. -/
theorem marker_of_read {fw : Firmware} {bytes raw : List UInt8} (hroot : openEspRoot fw = .ok ())
    (hread : readMarkerFile fw bytes = .ok raw) :
    (efiMain fw (some bytes)).1 = afterDelete fw bytes := by
  rw [efiMain, takeMarker, hroot, hread]
  cases readKernelFile fw with
  | error s => rfl
  | ok u => cases call fw.loadImage <;> rfl

theorem marker_cases (fw : Firmware) (bytes : List UInt8) :
    (efiMain fw (some bytes)).1 = none ∨ (efiMain fw (some bytes)).1 = some bytes := by
  cases hroot : openEspRoot fw with
  | error s => exact .inr (by rw [efiMain, hroot])
  | ok u =>
      cases hread : readMarkerFile fw bytes with
      | ok raw =>
          rw [marker_of_read hroot hread, afterDelete]
          split
          · exact .inl rfl
          · exact .inr rfl
      | error s =>
          right
          rw [efiMain, takeMarker, hroot, hread]
          cases readKernelFile fw with
          | error s => rfl
          | ok u => cases call fw.loadImage <;> rfl

theorem handed_of_no_marker (fws : List Firmware) :
    (boots none fws).countP Outcome.handed = 0 := by
  induction fws with
  | nil => rfl
  | cons fw fws ih =>
      obtain ⟨hmarker, hhanded⟩ := efiMain_none fw
      rw [boots_cons, hmarker, List.countP_cons, ih, hhanded]
      rfl

/-- Where Delete removes the marker in every boot that gets as far as handing the
command line over, one boot at most does. -/
theorem handed_at_most_once (bytes : List UInt8) (fws : List Firmware)
    (h : ∀ fw ∈ fws, fw.HandsOver bytes → fw.deleteMarker = EFI_SUCCESS) :
    (boots (some bytes) fws).countP Outcome.handed ≤ 1 := by
  induction fws with
  | nil => simp [boots]
  | cons fw fws ih =>
      have hrest := ih fun fw' hfw' => h fw' (List.mem_cons_of_mem fw hfw')
      rw [boots_cons, List.countP_cons]
      by_cases hover : fw.HandsOver bytes
      · have hgone : (efiMain fw (some bytes)).1 = none := by
          obtain ⟨hroot, ⟨raw, hread⟩, -⟩ := id hover
          rw [marker_of_read hroot hread, afterDelete, if_pos (h fw List.mem_cons_self hover)]
        rw [hgone, handed_of_no_marker]
        split <;> omega
      · have hnot : (efiMain fw (some bytes)).2.handed ≠ true := fun hh =>
          hover ((handed_iff fw bytes).mp hh)
        rw [if_neg hnot, Nat.add_zero]
        rcases marker_cases fw bytes with hmarker | hmarker
        · rw [hmarker, handed_of_no_marker]
          exact Nat.zero_le 1
        · rw [hmarker]
          exact hrest

/-- Firmware that does everything it is asked, with this answer to Delete. -/
def obliging (delete : Status) : Firmware where
  handleSelf := EFI_SUCCESS
  handleVolume := EFI_SUCCESS
  openVolume := EFI_SUCCESS
  openMarker := EFI_SUCCESS
  infoMarker := EFI_SUCCESS
  allocMarker := EFI_SUCCESS
  readMarker := EFI_SUCCESS
  readLength := 4096
  deleteMarker := delete
  allocCmd := EFI_SUCCESS
  openKernel := EFI_SUCCESS
  infoKernel := EFI_SUCCESS
  allocKernel := EFI_SUCCESS
  readKernel := EFI_SUCCESS
  loadImage := EFI_SUCCESS
  handleImage := EFI_SUCCESS

/-- `init=/m` and a newline. -/
def sampleMarker : List UInt8 := [0x69, 0x6e, 0x69, 0x74, 0x3d, 0x2f, 0x6d, 0x0a]

theorem handed_at_most_once_sample :
    (boots (some sampleMarker) [obliging EFI_SUCCESS, obliging EFI_SUCCESS]).countP
      Outcome.handed ≤ 1 := by
  apply handed_at_most_once
  simp [obliging]

/-- A marker that Delete leaves in place is taken again at the next boot. -/
theorem handed_twice :
    ¬ (boots (some sampleMarker)
        [obliging EFI_WARN_DELETE_FAILURE, obliging EFI_WARN_DELETE_FAILURE]).countP
      Outcome.handed ≤ 1 := by
  decide

end Veron.OneShotBoot
