import GfpDrivers.Basic

/-!
HDMI infoframes (`video/hdmi.c`): the five kinds of frames, their checks, and
the functions that pack a frame into a buffer and unpack it again.

Fields of a frame are numbers; what is stored in the buffer is cut to a byte.
`s3d_struct` is signed, since `-1` stands for "not set". A frame that a check
accepts may have been changed by it, so a check returns the frame.
-/

namespace GfpDrivers.Hdmi

abbrev Buf := ℕ → BitVec 8

def HDMI_INFOFRAME_TYPE_VENDOR : ℕ := 0x81
def HDMI_INFOFRAME_TYPE_AVI : ℕ := 0x82
def HDMI_INFOFRAME_TYPE_SPD : ℕ := 0x83
def HDMI_INFOFRAME_TYPE_AUDIO : ℕ := 0x84
def HDMI_INFOFRAME_TYPE_DRM : ℕ := 0x87

def HDMI_IEEE_OUI : ℕ := 0x000c03
def HDMI_INFOFRAME_HEADER_SIZE : ℕ := 4
def HDMI_AVI_INFOFRAME_SIZE : ℕ := 13
def HDMI_SPD_INFOFRAME_SIZE : ℕ := 25
def HDMI_AUDIO_INFOFRAME_SIZE : ℕ := 10
def HDMI_DRM_INFOFRAME_SIZE : ℕ := 26
def HDMI_VENDOR_INFOFRAME_SIZE : ℕ := 4

def HDMI_PICTURE_ASPECT_16_9 : ℕ := 2
def HDMI_3D_STRUCTURE_INVALID : ℤ := -1
def HDMI_3D_STRUCTURE_SIDE_BY_SIDE_HALF : ℤ := 8

/-- `struct hdmi_any_infoframe` -/
structure HdmiAnyInfoframe where
  type : ℕ
  version : ℕ
  length : ℕ

/-- `struct hdmi_avi_infoframe` -/
structure HdmiAviInfoframe extends HdmiAnyInfoframe where
  colorspace : ℕ
  scanMode : ℕ
  colorimetry : ℕ
  pictureAspect : ℕ
  activeAspect : ℕ
  itc : Bool
  extendedColorimetry : ℕ
  quantizationRange : ℕ
  nups : ℕ
  videoCode : ℕ
  yccQuantizationRange : ℕ
  contentType : ℕ
  pixelRepeat : ℕ
  topBar : ℕ
  bottomBar : ℕ
  leftBar : ℕ
  rightBar : ℕ

/-- `struct hdmi_spd_infoframe` -/
structure HdmiSpdInfoframe extends HdmiAnyInfoframe where
  vendor : Fin 8 → BitVec 8
  product : Fin 16 → BitVec 8
  sdi : ℕ

/-- `struct hdmi_audio_infoframe` -/
structure HdmiAudioInfoframe extends HdmiAnyInfoframe where
  channels : ℕ
  codingType : ℕ
  sampleSize : ℕ
  sampleFrequency : ℕ
  codingTypeExt : ℕ
  channelAllocation : ℕ
  levelShiftValue : ℕ
  downmixInhibit : Bool

/-- `struct hdmi_vendor_infoframe` -/
structure HdmiVendorInfoframe extends HdmiAnyInfoframe where
  oui : ℕ
  vic : ℕ
  s3dStruct : ℤ
  s3dExtData : ℕ

/-- `struct hdmi_drm_infoframe` -/
structure HdmiDrmInfoframe extends HdmiAnyInfoframe where
  eotf : ℕ
  metadataType : ℕ
  displayPrimaries : Fin 3 → ℕ × ℕ
  whitePoint : ℕ × ℕ
  maxDisplayMasteringLuminance : ℕ
  minDisplayMasteringLuminance : ℕ
  maxCll : ℕ
  maxFall : ℕ

/-- `union hdmi_infoframe` -/
inductive HdmiInfoframe where
  | avi (frame : HdmiAviInfoframe)
  | spd (frame : HdmiSpdInfoframe)
  | audio (frame : HdmiAudioInfoframe)
  | vendor (frame : HdmiVendorInfoframe)
  | drm (frame : HdmiDrmInfoframe)

def HdmiInfoframe.any : HdmiInfoframe → HdmiAnyInfoframe
  | .avi frame => frame.toHdmiAnyInfoframe
  | .spd frame => frame.toHdmiAnyInfoframe
  | .audio frame => frame.toHdmiAnyInfoframe
  | .vendor frame => frame.toHdmiAnyInfoframe
  | .drm frame => frame.toHdmiAnyInfoframe

/-! ### Checksum -/

/-- The sum that `hdmi_infoframe_checksum` forms. -/
def csum (ptr : Buf) (size : ℕ) : BitVec 8 := (List.range size).foldl (fun csum i => csum + ptr i) 0

/-- `hdmi_infoframe_checksum` -/
def hdmiInfoframeChecksum (ptr : Buf) (size : ℕ) : BitVec 8 := 256#8 - csum ptr size

/-- `hdmi_infoframe_set_checksum` -/
def hdmiInfoframeSetChecksum (buffer : Buf) (size : ℕ) : Buf :=
  Function.update buffer 3 (hdmiInfoframeChecksum buffer size)

/-! ### Checks -/

/-- `hdmi_avi_infoframe_check` -/
def hdmiAviInfoframeCheck (frame : HdmiAviInfoframe) : Except ℤ HdmiAviInfoframe :=
  if frame.type ≠ HDMI_INFOFRAME_TYPE_AVI ∨ frame.version ≠ 2 ∨ frame.length ≠ HDMI_AVI_INFOFRAME_SIZE then
    .error (-EINVAL)
  else if HDMI_PICTURE_ASPECT_16_9 < frame.pictureAspect then .error (-EINVAL)
  else .ok frame

/-- `hdmi_spd_infoframe_check` -/
def hdmiSpdInfoframeCheck (frame : HdmiSpdInfoframe) : Except ℤ HdmiSpdInfoframe :=
  if frame.type ≠ HDMI_INFOFRAME_TYPE_SPD ∨ frame.version ≠ 1 ∨ frame.length ≠ HDMI_SPD_INFOFRAME_SIZE then
    .error (-EINVAL)
  else .ok frame

/-- `hdmi_audio_infoframe_check` -/
def hdmiAudioInfoframeCheck (frame : HdmiAudioInfoframe) : Except ℤ HdmiAudioInfoframe :=
  if frame.type ≠ HDMI_INFOFRAME_TYPE_AUDIO ∨ frame.version ≠ 1 ∨ frame.length ≠ HDMI_AUDIO_INFOFRAME_SIZE then
    .error (-EINVAL)
  else .ok frame

/-- `hdmi_vendor_infoframe_length` -/
def hdmiVendorInfoframeLength (frame : HdmiVendorInfoframe) : ℕ :=
  if HDMI_3D_STRUCTURE_SIDE_BY_SIDE_HALF ≤ frame.s3dStruct then 6
  else if frame.vic ≠ 0 ∨ frame.s3dStruct ≠ HDMI_3D_STRUCTURE_INVALID then 5
  else 4

/-- `hdmi_vendor_infoframe_check_only` -/
def hdmiVendorInfoframeCheckOnly (frame : HdmiVendorInfoframe) : Except ℤ HdmiVendorInfoframe :=
  if frame.type ≠ HDMI_INFOFRAME_TYPE_VENDOR ∨ frame.version ≠ 1 ∨ frame.oui ≠ HDMI_IEEE_OUI then
    .error (-EINVAL)
  else if frame.vic ≠ 0 ∧ frame.s3dStruct ≠ HDMI_3D_STRUCTURE_INVALID then .error (-EINVAL)
  else if frame.length ≠ hdmiVendorInfoframeLength frame then .error (-EINVAL)
  else .ok frame

/-- `hdmi_vendor_infoframe_check` -/
def hdmiVendorInfoframeCheck (frame : HdmiVendorInfoframe) : Except ℤ HdmiVendorInfoframe :=
  hdmiVendorInfoframeCheckOnly { frame with length := hdmiVendorInfoframeLength frame }

/-- `hdmi_drm_infoframe_check` -/
def hdmiDrmInfoframeCheck (frame : HdmiDrmInfoframe) : Except ℤ HdmiDrmInfoframe :=
  if frame.type ≠ HDMI_INFOFRAME_TYPE_DRM ∨ frame.version ≠ 1 then .error (-EINVAL)
  else if frame.length ≠ HDMI_DRM_INFOFRAME_SIZE then .error (-EINVAL)
  else .ok frame

/-! ### Packing -/

/-- What an assignment to a byte of the buffer stores. -/
def byte (n : ℕ) : BitVec 8 := BitVec.ofNat 8 n

/-- `BIT(n)` where the condition holds. -/
def bitIf (n : ℕ) (b : Bool) : ℕ := if b then 1 <<< n else 0

/-- What all pack functions do once they have the payload: clear the buffer, put the header
and the payload and set the checksum. -/
def packFrame (any : HdmiAnyInfoframe) (payload : List (BitVec 8)) (buffer : Buf) (size : ℕ) : Except ℤ (Buf × ℕ) :=
  let length := HDMI_INFOFRAME_HEADER_SIZE + any.length
  if size < length then .error (-ENOSPC)
  else
    let bytes := [byte any.type, byte any.version, byte any.length, 0] ++ payload
    .ok (hdmiInfoframeSetChecksum (fun i => if i < size then bytes.getD i 0 else buffer i) length, length)

/-- The payload that `hdmi_avi_infoframe_pack_only` writes. -/
def aviPayload (frame : HdmiAviInfoframe) : List (BitVec 8) :=
  [byte (((frame.colorspace &&& 0x3) <<< 5 ||| (frame.scanMode &&& 0x3)) |||
      -- Data byte 1, bit 4 has to be set if we provide the active format aspect ratio
      bitIf 4 (decide (frame.activeAspect &&& 0xf ≠ 0)) |||
      -- Bit 3 and 2 indicate if we transmit horizontal/vertical bar data
      bitIf 3 (decide (frame.topBar ≠ 0 ∨ frame.bottomBar ≠ 0)) |||
      bitIf 2 (decide (frame.leftBar ≠ 0 ∨ frame.rightBar ≠ 0))),
    byte ((frame.colorimetry &&& 0x3) <<< 6 ||| (frame.pictureAspect &&& 0x3) <<< 4 ||| (frame.activeAspect &&& 0xf)),
    byte (((frame.extendedColorimetry &&& 0x7) <<< 4 ||| (frame.quantizationRange &&& 0x3) <<< 2 |||
      (frame.nups &&& 0x3)) ||| bitIf 7 frame.itc),
    byte (frame.videoCode &&& 0x7f),
    byte ((frame.yccQuantizationRange &&& 0x3) <<< 6 ||| (frame.contentType &&& 0x3) <<< 4 |||
      (frame.pixelRepeat &&& 0xf)),
    byte (frame.topBar &&& 0xff), byte ((frame.topBar >>> 8) &&& 0xff),
    byte (frame.bottomBar &&& 0xff), byte ((frame.bottomBar >>> 8) &&& 0xff),
    byte (frame.leftBar &&& 0xff), byte ((frame.leftBar >>> 8) &&& 0xff),
    byte (frame.rightBar &&& 0xff), byte ((frame.rightBar >>> 8) &&& 0xff)]

/-- `hdmi_avi_infoframe_pack_only` -/
def hdmiAviInfoframePackOnly (frame : HdmiAviInfoframe) (buffer : Buf) (size : ℕ) : Except ℤ (Buf × ℕ) := do
  let _ ← hdmiAviInfoframeCheck frame
  packFrame frame.toHdmiAnyInfoframe (aviPayload frame) buffer size

/-- `hdmi_spd_infoframe_pack_only` -/
def hdmiSpdInfoframePackOnly (frame : HdmiSpdInfoframe) (buffer : Buf) (size : ℕ) : Except ℤ (Buf × ℕ) := do
  let _ ← hdmiSpdInfoframeCheck frame
  packFrame frame.toHdmiAnyInfoframe (List.ofFn frame.vendor ++ List.ofFn frame.product ++ [byte frame.sdi]) buffer size

/-- The payload that `hdmi_audio_infoframe_pack_only` writes. -/
def audioPayload (frame : HdmiAudioInfoframe) : List (BitVec 8) :=
  let channels := if 2 ≤ frame.channels then frame.channels - 1 else 0
  [byte ((frame.codingType &&& 0xf) <<< 4 ||| (channels &&& 0x7)),
    byte ((frame.sampleFrequency &&& 0x7) <<< 2 ||| (frame.sampleSize &&& 0x3)),
    byte (frame.codingTypeExt &&& 0x1f),
    byte frame.channelAllocation,
    byte ((frame.levelShiftValue &&& 0xf) <<< 3 ||| bitIf 7 frame.downmixInhibit)]

/-- `hdmi_audio_infoframe_pack_only` -/
def hdmiAudioInfoframePackOnly (frame : HdmiAudioInfoframe) (buffer : Buf) (size : ℕ) : Except ℤ (Buf × ℕ) := do
  let _ ← hdmiAudioInfoframeCheck frame
  packFrame frame.toHdmiAnyInfoframe (audioPayload frame) buffer size

/-- The payload that `hdmi_vendor_infoframe_pack_only` writes. -/
def vendorPayload (frame : HdmiVendorInfoframe) : List (BitVec 8) :=
  -- HDMI OUI
  [byte 0x03, byte 0x0c, byte 0x00] ++
    if frame.s3dStruct ≠ HDMI_3D_STRUCTURE_INVALID then
      [byte (0x2 <<< 5), byte ((frame.s3dStruct % 16).toNat <<< 4)] ++
        if HDMI_3D_STRUCTURE_SIDE_BY_SIDE_HALF ≤ frame.s3dStruct then [byte ((frame.s3dExtData &&& 0xf) <<< 4)] else []
    else if frame.vic ≠ 0 then [byte (0x1 <<< 5), byte frame.vic]
    else [byte (0x0 <<< 5)]

/-- `hdmi_vendor_infoframe_pack_only` -/
def hdmiVendorInfoframePackOnly (frame : HdmiVendorInfoframe) (buffer : Buf) (size : ℕ) : Except ℤ (Buf × ℕ) := do
  let _ ← hdmiVendorInfoframeCheckOnly frame
  packFrame frame.toHdmiAnyInfoframe (vendorPayload frame) buffer size

/-- The two bytes of a 16-bit field. -/
def bytes16 (n : ℕ) : List (BitVec 8) := [byte n, byte (n >>> 8)]

/-- The payload that `hdmi_drm_infoframe_pack_only` writes. -/
def drmPayload (frame : HdmiDrmInfoframe) : List (BitVec 8) :=
  [byte frame.eotf, byte frame.metadataType] ++
    (bytes16 (frame.displayPrimaries 0).1 ++ bytes16 (frame.displayPrimaries 0).2) ++
    (bytes16 (frame.displayPrimaries 1).1 ++ bytes16 (frame.displayPrimaries 1).2) ++
    (bytes16 (frame.displayPrimaries 2).1 ++ bytes16 (frame.displayPrimaries 2).2) ++
    (bytes16 frame.whitePoint.1 ++ bytes16 frame.whitePoint.2) ++
    bytes16 frame.maxDisplayMasteringLuminance ++ bytes16 frame.minDisplayMasteringLuminance ++
    bytes16 frame.maxCll ++ bytes16 frame.maxFall

/-- `hdmi_drm_infoframe_pack_only` -/
def hdmiDrmInfoframePackOnly (frame : HdmiDrmInfoframe) (buffer : Buf) (size : ℕ) : Except ℤ (Buf × ℕ) :=
  packFrame frame.toHdmiAnyInfoframe (drmPayload frame) buffer size

/-- The check function of a frame's kind. -/
def HdmiInfoframe.check : HdmiInfoframe → Except ℤ HdmiInfoframe
  | .avi frame => (hdmiAviInfoframeCheck frame).map .avi
  | .spd frame => (hdmiSpdInfoframeCheck frame).map .spd
  | .audio frame => (hdmiAudioInfoframeCheck frame).map .audio
  | .vendor frame => (hdmiVendorInfoframeCheck frame).map .vendor
  | .drm frame => (hdmiDrmInfoframeCheck frame).map .drm

/-- The `pack_only` function of a frame's kind. -/
def HdmiInfoframe.packOnly : HdmiInfoframe → Buf → ℕ → Except ℤ (Buf × ℕ)
  | .avi frame => hdmiAviInfoframePackOnly frame
  | .spd frame => hdmiSpdInfoframePackOnly frame
  | .audio frame => hdmiAudioInfoframePackOnly frame
  | .vendor frame => hdmiVendorInfoframePackOnly frame
  | .drm frame => hdmiDrmInfoframePackOnly frame

/-- The pack function of a frame's kind: the frame as the check leaves it, the buffer and the length. -/
def HdmiInfoframe.pack (frame : HdmiInfoframe) (buffer : Buf) (size : ℕ) : Except ℤ (HdmiInfoframe × Buf × ℕ) := do
  let frame ← frame.check
  let (buffer, length) ← frame.packOnly buffer size
  .ok (frame, buffer, length)

/-! ### Unpacking -/

/-- How an unpack function can end without a frame: with an error, or by reading past the buffer. -/
inductive Fault where
  | rc (e : ℤ)
  | overrun
  deriving DecidableEq

/-- The number in a byte. -/
def Buf.at (ptr : Buf) (i : ℕ) : ℕ := (ptr i).toNat

/-- `(ptr[i + 1] << 8) | ptr[i]` -/
def Buf.at16 (ptr : Buf) (i : ℕ) : ℕ := ptr.at (i + 1) <<< 8 ||| ptr.at i

/-- The checks that four of the unpack functions begin with; each of them fails with `-EINVAL`. -/
def headerOk (buffer : Buf) (size type version length : ℕ) : Bool :=
  decide (HDMI_INFOFRAME_HEADER_SIZE + length ≤ size) &&
    decide (buffer.at 0 = type ∧ buffer.at 1 = version ∧ buffer.at 2 = length) &&
    decide (hdmiInfoframeChecksum buffer (HDMI_INFOFRAME_HEADER_SIZE + length) = 0)

/-- `hdmi_avi_infoframe_unpack` -/
def hdmiAviInfoframeUnpack (buffer : Buf) (size : ℕ) : Except Fault HdmiAviInfoframe :=
  if headerOk buffer size HDMI_INFOFRAME_TYPE_AVI 2 HDMI_AVI_INFOFRAME_SIZE = false then .error (.rc (-EINVAL))
  else
    let ptr : Buf := fun i => buffer (HDMI_INFOFRAME_HEADER_SIZE + i)
    .ok
      { type := HDMI_INFOFRAME_TYPE_AVI
        version := 2
        length := HDMI_AVI_INFOFRAME_SIZE
        colorspace := (ptr.at 0 >>> 5) &&& 0x3
        topBar := if ptr.at 0 &&& 0x8 ≠ 0 then ptr.at16 5 else 0
        bottomBar := if ptr.at 0 &&& 0x8 ≠ 0 then ptr.at16 7 else 0
        leftBar := if ptr.at 0 &&& 0x4 ≠ 0 then ptr.at16 9 else 0
        rightBar := if ptr.at 0 &&& 0x4 ≠ 0 then ptr.at16 11 else 0
        scanMode := ptr.at 0 &&& 0x3
        colorimetry := (ptr.at 1 >>> 6) &&& 0x3
        pictureAspect := (ptr.at 1 >>> 4) &&& 0x3
        -- the assignment that depends on bit 4 of the first byte is overwritten by this one
        activeAspect := ptr.at 1 &&& 0xf
        itc := decide (ptr.at 2 &&& 0x80 ≠ 0)
        extendedColorimetry := (ptr.at 2 >>> 4) &&& 0x7
        quantizationRange := (ptr.at 2 >>> 2) &&& 0x3
        nups := ptr.at 2 &&& 0x3
        videoCode := ptr.at 3 &&& 0x7f
        yccQuantizationRange := (ptr.at 4 >>> 6) &&& 0x3
        contentType := (ptr.at 4 >>> 4) &&& 0x3
        pixelRepeat := ptr.at 4 &&& 0xf }

/-- `strlen` of the string at `start` in a buffer of `size` bytes; nothing if the string runs out of it. -/
def strlen (buffer : Buf) (size start : ℕ) : Option ℕ :=
  (List.range (size - start)).find? fun n => buffer (start + n) = 0

/-- What `memcpy` of `len` bytes leaves in a cleared array. -/
def copied (buffer : Buf) (start len : ℕ) {n : ℕ} : Fin n → BitVec 8 :=
  fun i => if i.val < len then buffer (start + i.val) else 0

/-- `hdmi_spd_infoframe_init` on two strings of a buffer. -/
def hdmiSpdInfoframeInit (buffer : Buf) (size vendor product : ℕ) : Except Fault HdmiSpdInfoframe :=
  match strlen buffer size vendor, strlen buffer size product with
  | some vendorLen, some productLen => .ok
      { type := HDMI_INFOFRAME_TYPE_SPD
        version := 1
        length := HDMI_SPD_INFOFRAME_SIZE
        vendor := copied buffer vendor (min vendorLen 8)
        product := copied buffer product (min productLen 16)
        sdi := 0 }
  | _, _ => .error .overrun

/-- `hdmi_spd_infoframe_unpack` -/
def hdmiSpdInfoframeUnpack (buffer : Buf) (size : ℕ) : Except Fault HdmiSpdInfoframe :=
  if headerOk buffer size HDMI_INFOFRAME_TYPE_SPD 1 HDMI_SPD_INFOFRAME_SIZE = false then .error (.rc (-EINVAL))
  else do
    let ptr := HDMI_INFOFRAME_HEADER_SIZE
    let frame ← hdmiSpdInfoframeInit buffer size ptr (ptr + 8)
    .ok { frame with sdi := buffer.at (ptr + 24) }

/-- `hdmi_audio_infoframe_unpack` -/
def hdmiAudioInfoframeUnpack (buffer : Buf) (size : ℕ) : Except Fault HdmiAudioInfoframe :=
  if headerOk buffer size HDMI_INFOFRAME_TYPE_AUDIO 1 HDMI_AUDIO_INFOFRAME_SIZE = false then .error (.rc (-EINVAL))
  else
    let ptr : Buf := fun i => buffer (HDMI_INFOFRAME_HEADER_SIZE + i)
    .ok
      { type := HDMI_INFOFRAME_TYPE_AUDIO
        version := 1
        length := HDMI_AUDIO_INFOFRAME_SIZE
        channels := ptr.at 0 &&& 0x7
        codingType := (ptr.at 0 >>> 4) &&& 0xf
        sampleSize := ptr.at 1 &&& 0x3
        sampleFrequency := (ptr.at 1 >>> 2) &&& 0x7
        codingTypeExt := ptr.at 2 &&& 0x1f
        channelAllocation := ptr.at 3
        levelShiftValue := (ptr.at 4 >>> 3) &&& 0xf
        downmixInhibit := decide (ptr.at 4 &&& 0x80 ≠ 0) }

/-- The second half of `hdmi_vendor_any_infoframe_unpack`, from the video format on. -/
def vendorFields (ptr : Buf) (length : ℕ) : Except Fault HdmiVendorInfoframe :=
  let hdmiVideoFormat := ptr.at 3 >>> 5
  if 0x2 < hdmiVideoFormat then .error (.rc (-EINVAL))
  else
    -- `hdmi_vendor_infoframe_init`
    let hvf : HdmiVendorInfoframe :=
      { type := HDMI_INFOFRAME_TYPE_VENDOR
        version := 1
        length := length
        oui := HDMI_IEEE_OUI
        vic := 0
        s3dStruct := HDMI_3D_STRUCTURE_INVALID
        s3dExtData := 0 }
    if hdmiVideoFormat = 0x2 then
      if length ≠ 5 ∧ length ≠ 6 then .error (.rc (-EINVAL))
      else
        let s3dStruct : ℤ := (ptr.at 4 >>> 4 : ℕ)
        if HDMI_3D_STRUCTURE_SIDE_BY_SIDE_HALF ≤ s3dStruct then
          if length ≠ 6 then .error (.rc (-EINVAL))
          else .ok { hvf with s3dStruct := s3dStruct, s3dExtData := ptr.at 5 >>> 4 }
        else .ok { hvf with s3dStruct := s3dStruct }
    else if hdmiVideoFormat = 0x1 then
      if length ≠ 5 then .error (.rc (-EINVAL)) else .ok { hvf with vic := ptr.at 4 }
    else if length ≠ 4 then .error (.rc (-EINVAL))
    else .ok hvf

/-- `hdmi_vendor_any_infoframe_unpack` -/
def hdmiVendorAnyInfoframeUnpack (buffer : Buf) (size : ℕ) : Except Fault HdmiVendorInfoframe :=
  if size < HDMI_INFOFRAME_HEADER_SIZE then .error (.rc (-EINVAL))
  else if buffer.at 0 ≠ HDMI_INFOFRAME_TYPE_VENDOR ∨ buffer.at 1 ≠ 1 ∨
      (buffer.at 2 ≠ 4 ∧ buffer.at 2 ≠ 5 ∧ buffer.at 2 ≠ 6) then .error (.rc (-EINVAL))
  else
    let length := buffer.at 2
    if size < HDMI_INFOFRAME_HEADER_SIZE + length then .error (.rc (-EINVAL))
    else if hdmiInfoframeChecksum buffer (HDMI_INFOFRAME_HEADER_SIZE + length) ≠ 0 then .error (.rc (-EINVAL))
    else
      let ptr : Buf := fun i => buffer (HDMI_INFOFRAME_HEADER_SIZE + i)
      -- HDMI OUI
      if ptr.at 0 ≠ 0x03 ∨ ptr.at 1 ≠ 0x0c ∨ ptr.at 2 ≠ 0x00 then .error (.rc (-EINVAL))
      else vendorFields ptr length

/-- `hdmi_drm_infoframe_unpack_only` -/
def hdmiDrmInfoframeUnpackOnly (ptr : Buf) (size : ℕ) : Except Fault HdmiDrmInfoframe :=
  if size < HDMI_DRM_INFOFRAME_SIZE then .error (.rc (-EINVAL))
  else .ok
    { type := HDMI_INFOFRAME_TYPE_DRM
      version := 1
      length := HDMI_DRM_INFOFRAME_SIZE
      eotf := ptr.at 0 &&& 0x7
      metadataType := ptr.at 1 &&& 0x7
      displayPrimaries := fun i => (ptr.at16 (2 + 4 * i.val), ptr.at16 (4 + 4 * i.val))
      whitePoint := (ptr.at16 14, ptr.at16 16)
      maxDisplayMasteringLuminance := ptr.at16 18
      minDisplayMasteringLuminance := ptr.at16 20
      maxCll := ptr.at16 22
      maxFall := ptr.at16 24 }

/-- `hdmi_drm_infoframe_unpack` -/
def hdmiDrmInfoframeUnpack (buffer : Buf) (size : ℕ) : Except Fault HdmiDrmInfoframe :=
  if headerOk buffer size HDMI_INFOFRAME_TYPE_DRM 1 HDMI_DRM_INFOFRAME_SIZE = false then .error (.rc (-EINVAL))
  else
    hdmiDrmInfoframeUnpackOnly (fun i => buffer (HDMI_INFOFRAME_HEADER_SIZE + i)) (size - HDMI_INFOFRAME_HEADER_SIZE)

/-- `hdmi_infoframe_unpack` -/
def hdmiInfoframeUnpack (buffer : Buf) (size : ℕ) : Except Fault HdmiInfoframe :=
  if size < HDMI_INFOFRAME_HEADER_SIZE then .error (.rc (-EINVAL))
  else if buffer.at 0 = HDMI_INFOFRAME_TYPE_AVI then (hdmiAviInfoframeUnpack buffer size).map .avi
  else if buffer.at 0 = HDMI_INFOFRAME_TYPE_DRM then (hdmiDrmInfoframeUnpack buffer size).map .drm
  else if buffer.at 0 = HDMI_INFOFRAME_TYPE_SPD then (hdmiSpdInfoframeUnpack buffer size).map .spd
  else if buffer.at 0 = HDMI_INFOFRAME_TYPE_AUDIO then (hdmiAudioInfoframeUnpack buffer size).map .audio
  else if buffer.at 0 = HDMI_INFOFRAME_TYPE_VENDOR then (hdmiVendorAnyInfoframeUnpack buffer size).map .vendor
  else .error (.rc (-EINVAL))

end GfpDrivers.Hdmi
