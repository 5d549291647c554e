import GfpDrivers.Hdmi.Infoframe
import Mathlib.Algebra.BigOperators.Group.Finset.Piecewise
import Mathlib.Data.BitVec

/-!
Packing a frame and unpacking the buffer again. Every frame that its check
accepts is packed with a right checksum. It comes back unchanged unless the
audio frame names its channels (the packer stores one less and the unpacker
does not add it back), the vendor frame has 3D data that its structure does
not transmit, or a full product string and the byte after it leave no
terminator in the buffer.
-/

namespace GfpDrivers.Hdmi

open Finset List

/-! ### The packed buffer -/

theorem csum_eq_sum (ptr : Buf) (size : ℕ) : csum ptr size = ∑ i ∈ range size, ptr i := by
  rw [csum]
  induction size with
  | zero => rfl
  | succ size ih => rw [range_succ, foldl_append, ih, Finset.sum_range_succ, foldl_cons, foldl_nil]

theorem csum_hdmiInfoframeSetChecksum {buffer : Buf} {size : ℕ} (hzero : buffer 3 = 0) (hsize : 3 < size) :
    csum (hdmiInfoframeSetChecksum buffer size) size = 0 := by
  have hsum : ∑ i ∈ range size, buffer i = ∑ i ∈ range size \ {3}, buffer i := by
    rw [← Finset.sum_sdiff (Finset.singleton_subset_iff.mpr (Finset.mem_range.mpr hsize)), Finset.sum_singleton, hzero,
      add_zero]
  rw [csum_eq_sum, hdmiInfoframeSetChecksum, Finset.sum_update_of_mem (Finset.mem_range.mpr hsize),
    hdmiInfoframeChecksum, csum_eq_sum, hsum]
  exact sub_add_cancel (256#8) _

/-- The bytes that a buffer holds after packing, apart from the checksum. -/
structure Packed (any : HdmiAnyInfoframe) (payload : List (BitVec 8)) (buf : Buf) (size : ℕ) : Prop where
  length_le : 4 + any.length ≤ size
  csum_zero : csum buf (4 + any.length) = 0
  bytes : ∀ i < size, i ≠ 3 → buf i = ([byte any.type, byte any.version, byte any.length, 0] ++ payload).getD i 0

theorem packFrame_ok (any : HdmiAnyInfoframe) (payload : List (BitVec 8)) (buffer : Buf) {size : ℕ}
    (hsize : 4 + any.length ≤ size) :
    ∃ buf, packFrame any payload buffer size = .ok (buf, 4 + any.length) ∧ Packed any payload buf size := by
  refine ⟨_, by rw [packFrame]; exact if_neg (Nat.not_lt.mpr hsize), hsize, ?_, fun i hi hne => ?_⟩
  · refine csum_hdmiInfoframeSetChecksum ?_ (by simp only [HDMI_INFOFRAME_HEADER_SIZE]; omega)
    rw [if_pos (by omega)]
    rfl
  · rw [hdmiInfoframeSetChecksum, Function.update_of_ne hne, if_pos hi]

section

variable {any : HdmiAnyInfoframe} {payload : List (BitVec 8)} {buf : Buf} {size : ℕ}

theorem Packed.header (h : Packed any payload buf size) :
    buf.at 0 = any.type % 256 ∧ buf.at 1 = any.version % 256 ∧ buf.at 2 = any.length % 256 := by
  have hsize := h.length_le
  refine ⟨?_, ?_, ?_⟩ <;>
  · rw [Buf.at, h.bytes _ (by omega) (by decide)]
    rfl

theorem Packed.checksum (h : Packed any payload buf size) : hdmiInfoframeChecksum buf (4 + any.length) = 0 := by
  rw [hdmiInfoframeChecksum, h.csum_zero]
  rfl

theorem Packed.headerOk (h : Packed any payload buf size) {type version length : ℕ} (htype : any.type = type)
    (hversion : any.version = version) (hlength : any.length = length) (hbound : type < 256 ∧ version < 256 ∧ length < 256) :
    Hdmi.headerOk buf size type version length = true := by
  obtain ⟨h0, h1, h2⟩ := h.header
  subst htype hversion hlength
  rw [Nat.mod_eq_of_lt hbound.1] at h0
  rw [Nat.mod_eq_of_lt hbound.2.1] at h1
  rw [Nat.mod_eq_of_lt hbound.2.2] at h2
  rw [Hdmi.headerOk, HDMI_INFOFRAME_HEADER_SIZE, h0, h1, h2, h.checksum]
  simp [h.length_le]

theorem Packed.at_payload (h : Packed any payload buf size) {i : ℕ} (hi : 4 + i < size) :
    Buf.at (fun i => buf (HDMI_INFOFRAME_HEADER_SIZE + i)) i = (payload.getD i 0).toNat := by
  rw [Buf.at, HDMI_INFOFRAME_HEADER_SIZE, h.bytes (4 + i) hi (by omega), Nat.add_comm]
  rfl

end

/-! ### Fields -/

theorem avi_flags : ∀ cs < 4, ∀ sm < 4, ∀ a t l : Bool,
    let b := (byte (((cs &&& 0x3) <<< 5 ||| (sm &&& 0x3)) ||| bitIf 4 a ||| bitIf 3 t ||| bitIf 2 l)).toNat
    (b >>> 5) &&& 0x3 = cs ∧ b &&& 0x3 = sm ∧ (b &&& 0x8 ≠ 0 ↔ t = true) ∧ (b &&& 0x4 ≠ 0 ↔ l = true) := by
  decide

theorem avi_aspects : ∀ c < 4, ∀ p < 4, ∀ a < 16,
    let b := (byte ((c &&& 0x3) <<< 6 ||| (p &&& 0x3) <<< 4 ||| (a &&& 0xf))).toNat
    (b >>> 6) &&& 0x3 = c ∧ (b >>> 4) &&& 0x3 = p ∧ b &&& 0xf = a := by
  decide

theorem avi_ranges : ∀ e < 8, ∀ q < 4, ∀ n < 4, ∀ itc : Bool,
    let b := (byte (((e &&& 0x7) <<< 4 ||| (q &&& 0x3) <<< 2 ||| (n &&& 0x3)) ||| bitIf 7 itc)).toNat
    (b >>> 4) &&& 0x7 = e ∧ (b >>> 2) &&& 0x3 = q ∧ b &&& 0x3 = n ∧ decide (b &&& 0x80 ≠ 0) = itc := by
  decide

theorem audio_coding : ∀ t < 16, ∀ c < 8,
    let b := (byte ((t &&& 0xf) <<< 4 ||| (c &&& 0x7))).toNat
    (b >>> 4) &&& 0xf = t ∧ b &&& 0x7 = c := by
  decide

theorem audio_samples : ∀ f < 8, ∀ n < 4,
    let b := (byte ((f &&& 0x7) <<< 2 ||| (n &&& 0x3))).toNat
    (b >>> 2) &&& 0x7 = f ∧ b &&& 0x3 = n := by
  decide

theorem audio_levels : ∀ v < 16, ∀ d : Bool,
    let b := (byte ((v &&& 0xf) <<< 3 ||| bitIf 7 d)).toNat
    (b >>> 3) &&& 0xf = v ∧ decide (b &&& 0x80 ≠ 0) = d := by
  decide

theorem toNat_byte (n : ℕ) : (byte n).toNat = n % 256 := BitVec.toNat_ofNat n 8

theorem toNat_byte_of_lt {n : ℕ} (hn : n < 256) : (byte n).toNat = n := by rw [toNat_byte, Nat.mod_eq_of_lt hn]

theorem and_mask {m n : ℕ} (w : ℕ) (hm : m = 2 ^ w - 1) (hn : n < 2 ^ w) : n &&& m = n := by
  rw [hm, Nat.and_two_pow_sub_one_eq_mod, Nat.mod_eq_of_lt hn]

theorem joined_bytes {n : ℕ} (hn : n < 65536) : (byte (n >>> 8)).toNat <<< 8 ||| (byte n).toNat = n := by
  rw [toNat_byte, toNat_byte, Nat.shiftRight_eq_div_pow, ← Nat.shiftLeft_add_eq_or_of_lt (by omega), Nat.shiftLeft_eq]
  omega

theorem byte_and_ff (n : ℕ) : byte (n &&& 0xff) = byte n := by
  apply BitVec.eq_of_toNat_eq
  rw [toNat_byte, toNat_byte, show 0xff = 2 ^ 8 - 1 from rfl, Nat.and_two_pow_sub_one_eq_mod]
  omega

/-! ### The five kinds -/

/-- The fields of a frame fit into what the wire has for them. -/
def HdmiInfoframe.InWidth : HdmiInfoframe → Prop
  | .avi f => f.colorspace < 4 ∧ f.scanMode < 4 ∧ f.colorimetry < 4 ∧ f.pictureAspect < 4 ∧ f.activeAspect < 16 ∧
      f.extendedColorimetry < 8 ∧ f.quantizationRange < 4 ∧ f.nups < 4 ∧ f.videoCode < 128 ∧
      f.yccQuantizationRange < 4 ∧ f.contentType < 4 ∧ f.pixelRepeat < 16 ∧ f.topBar < 65536 ∧
      f.bottomBar < 65536 ∧ f.leftBar < 65536 ∧ f.rightBar < 65536
  | .spd f => f.sdi < 256 ∧ (∀ i j, i < j → f.vendor i = 0 → f.vendor j = 0) ∧
      ∀ i j, i < j → f.product i = 0 → f.product j = 0
  | .audio f => (f.channels = 0 ∨ (2 ≤ f.channels ∧ f.channels ≤ 8)) ∧ f.codingType < 16 ∧ f.sampleSize < 4 ∧
      f.sampleFrequency < 8 ∧ f.codingTypeExt < 32 ∧ f.channelAllocation < 256 ∧ f.levelShiftValue < 16
  | .vendor f => f.vic < 256 ∧ -1 ≤ f.s3dStruct ∧ f.s3dStruct < 16 ∧ f.s3dExtData < 16
  | .drm f => f.eotf < 8 ∧ f.metadataType < 8 ∧
      (∀ i, (f.displayPrimaries i).1 < 65536 ∧ (f.displayPrimaries i).2 < 65536) ∧ f.whitePoint.1 < 65536 ∧
      f.whitePoint.2 < 65536 ∧ f.maxDisplayMasteringLuminance < 65536 ∧ f.minDisplayMasteringLuminance < 65536 ∧
      f.maxCll < 65536 ∧ f.maxFall < 65536

/-- What the unpacker undoes. -/
def HdmiInfoframe.Survives (size : ℕ) : HdmiInfoframe → Prop
  | .avi _ | .drm _ => True
  -- a product name without terminator, the byte of `sdi` after it and nothing behind
  | .spd f => f.sdi = 0 ∨ (∃ i, f.product i = 0) ∨ 4 + HDMI_SPD_INFOFRAME_SIZE < size
  -- `channels - 1` is stored and not undone
  | .audio f => f.channels = 0
  -- the data has no place on the wire for the other structures
  | .vendor f => HDMI_3D_STRUCTURE_SIDE_BY_SIDE_HALF ≤ f.s3dStruct ∨ f.s3dExtData = 0

section

variable {buf : Buf} {size : ℕ}

/-- A bar that is not transmitted because it and its twin are zero. -/
theorem bar_left {a b : ℕ} : (if a ≠ 0 ∨ b ≠ 0 then a else 0) = a := by
  split_ifs with h <;> omega

theorem bar_right {a b : ℕ} : (if a ≠ 0 ∨ b ≠ 0 then b else 0) = b := by
  split_ifs with h <;> omega

theorem avi_unpack {f : HdmiAviInfoframe} (hcheck : hdmiAviInfoframeCheck f = .ok f)
    (hwidth : HdmiInfoframe.InWidth (.avi f)) (h : Packed f.toHdmiAnyInfoframe (aviPayload f) buf size) :
    hdmiAviInfoframeUnpack buf size = .ok f := by
  obtain ⟨hcs, hsm, hcm, hpa, haa, hec, hqr, hnu, hvc, hyq, hct, hpr, htb, hbb, hlb, hrb⟩ := hwidth
  rw [hdmiAviInfoframeCheck] at hcheck
  split_ifs at hcheck with hheader
  simp only [not_or, not_not] at hheader
  obtain ⟨htype, hversion, hlength⟩ := hheader
  have hsize := h.length_le
  rw [hlength, HDMI_AVI_INFOFRAME_SIZE] at hsize
  have hbyte : ∀ k < 13, Buf.at (fun i => buf (HDMI_INFOFRAME_HEADER_SIZE + i)) k = ((aviPayload f).getD k 0).toNat :=
    fun k hk => h.at_payload (by omega)
  rw [hdmiAviInfoframeUnpack, h.headerOk htype hversion hlength (by decide), if_neg (by decide)]
  obtain ⟨hcolorspace, hscan, htop, hleft⟩ := avi_flags _ hcs _ hsm (decide (f.activeAspect &&& 0xf ≠ 0))
    (decide (f.topBar ≠ 0 ∨ f.bottomBar ≠ 0)) (decide (f.leftBar ≠ 0 ∨ f.rightBar ≠ 0))
  obtain ⟨hcolorimetry, hpicture, hactive⟩ := avi_aspects _ hcm _ hpa _ haa
  obtain ⟨hextended, hquantization, hnups, hitc⟩ := avi_ranges _ hec _ hqr _ hnu f.itc
  obtain ⟨hycc, hcontent, hrepeat⟩ := avi_aspects _ hyq _ hct _ hpr
  rw [decide_eq_true_eq] at htop hleft
  simp only [Buf.at16, hbyte, aviPayload, getD_cons_zero, getD_cons_succ, byte_and_ff, joined_bytes htb,
    joined_bytes hbb, joined_bytes hlb, joined_bytes hrb, Nat.reduceLT, Nat.reduceAdd]
  simp only [hcolorspace, hscan, htop, hleft, hcolorimetry, hpicture, hactive, hextended, hquantization, hnups, hitc,
    hycc, hcontent, hrepeat, bar_left, bar_right]
  have hcode : f.videoCode &&& 0x7f = f.videoCode := and_mask 7 rfl hvc
  rw [hcode, toNat_byte_of_lt (by omega), hcode]
  obtain ⟨⟨type, version, length⟩, _⟩ := f
  dsimp only at htype hversion hlength
  subst htype hversion hlength
  rfl

theorem audio_unpack {f : HdmiAudioInfoframe} (hcheck : hdmiAudioInfoframeCheck f = .ok f)
    (hwidth : HdmiInfoframe.InWidth (.audio f)) (h : Packed f.toHdmiAnyInfoframe (audioPayload f) buf size) :
    hdmiAudioInfoframeUnpack buf size = .ok { f with channels := f.channels - 1 } := by
  obtain ⟨hch, hct, hss, hsf, hce, hca, hls⟩ := hwidth
  rw [hdmiAudioInfoframeCheck] at hcheck
  split_ifs at hcheck with hheader
  simp only [not_or, not_not] at hheader
  obtain ⟨htype, hversion, hlength⟩ := hheader
  have hsize := h.length_le
  rw [hlength, HDMI_AUDIO_INFOFRAME_SIZE] at hsize
  have hbyte : ∀ k < 10, Buf.at (fun i => buf (HDMI_INFOFRAME_HEADER_SIZE + i)) k = ((audioPayload f).getD k 0).toNat :=
    fun k hk => h.at_payload (by omega)
  have hchannels : (if 2 ≤ f.channels then f.channels - 1 else 0) = f.channels - 1 := by
    split_ifs <;> omega
  rw [hdmiAudioInfoframeUnpack, h.headerOk htype hversion hlength (by decide), if_neg (by decide)]
  obtain ⟨hcoding, hstored⟩ := audio_coding _ hct (f.channels - 1) (by omega)
  obtain ⟨hfrequency, hsize'⟩ := audio_samples _ hsf _ hss
  obtain ⟨hlevel, hinhibit⟩ := audio_levels _ hls f.downmixInhibit
  have hext : f.codingTypeExt &&& 0x1f = f.codingTypeExt := and_mask 5 rfl hce
  simp only [hbyte, audioPayload, getD_cons_zero, getD_cons_succ, Nat.reduceLT, hchannels,
    toNat_byte_of_lt hca, hext, toNat_byte_of_lt (hce.trans (by decide : 32 < 256))]
  simp only [hcoding, hstored, hfrequency, hsize', hlevel, hinhibit]
  obtain ⟨⟨type, version, length⟩, _⟩ := f
  dsimp only at htype hversion hlength
  subst htype hversion hlength
  rfl

theorem drm_unpack {f : HdmiDrmInfoframe} (hcheck : hdmiDrmInfoframeCheck f = .ok f)
    (hwidth : HdmiInfoframe.InWidth (.drm f)) (h : Packed f.toHdmiAnyInfoframe (drmPayload f) buf size) :
    hdmiDrmInfoframeUnpack buf size = .ok f := by
  obtain ⟨heo, hmt, hdp, hwx, hwy, hmax, hmin, hcl, hfa⟩ := hwidth
  rw [hdmiDrmInfoframeCheck] at hcheck
  split_ifs at hcheck with hheader hlength
  simp only [not_or, not_not] at hheader hlength
  obtain ⟨htype, hversion⟩ := hheader
  have hsize := h.length_le
  rw [hlength, HDMI_DRM_INFOFRAME_SIZE] at hsize
  have hbyte : ∀ k < 26, Buf.at (fun i => buf (HDMI_INFOFRAME_HEADER_SIZE + i)) k = ((drmPayload f).getD k 0).toNat :=
    fun k hk => h.at_payload (by omega)
  simp only [drmPayload, bytes16, cons_append, nil_append] at hbyte
  have heotf : f.eotf &&& 0x7 = f.eotf := and_mask 3 rfl heo
  have hmeta : f.metadataType &&& 0x7 = f.metadataType := and_mask 3 rfl hmt
  have hprimaries : (fun i : Fin 3 => (Buf.at16 (fun i => buf (HDMI_INFOFRAME_HEADER_SIZE + i)) (2 + 4 * i.val),
      Buf.at16 (fun i => buf (HDMI_INFOFRAME_HEADER_SIZE + i)) (4 + 4 * i.val))) = f.displayPrimaries := by
    funext i
    obtain ⟨hx, hy⟩ := hdp i
    match i with
    | 0 | 1 | 2 =>
      simp only [Buf.at16, hbyte, getD_cons_zero, getD_cons_succ, Nat.reduceLT, Nat.reduceAdd, Nat.reduceMul,
        Fin.isValue, Fin.val_zero, Fin.val_one, Fin.val_two, joined_bytes hx, joined_bytes hy]
  rw [hdmiDrmInfoframeUnpack, h.headerOk htype hversion hlength (by decide), if_neg (by decide),
    hdmiDrmInfoframeUnpackOnly, if_neg (by simp only [HDMI_DRM_INFOFRAME_SIZE, HDMI_INFOFRAME_HEADER_SIZE]; omega),
    hprimaries]
  simp only [Buf.at16, hbyte, getD_cons_zero, getD_cons_succ, Nat.reduceLT, Nat.reduceAdd,
    toNat_byte_of_lt (heo.trans (by decide : 8 < 256)), toNat_byte_of_lt (hmt.trans (by decide : 8 < 256)), heotf, hmeta,
    joined_bytes hwx, joined_bytes hwy, joined_bytes hmax, joined_bytes hmin, joined_bytes hcl, joined_bytes hfa]
  obtain ⟨⟨type, version, length⟩, _⟩ := f
  dsimp only at htype hversion hlength
  subst htype hversion hlength
  rfl

theorem nibble_byte : ∀ n < 16, (byte (n <<< 4)).toNat >>> 4 = n := by
  decide

/-- A packed vendor frame passes all checks of the header. -/
theorem vendor_header {f : HdmiVendorInfoframe} (htype : f.type = HDMI_INFOFRAME_TYPE_VENDOR) (hversion : f.version = 1)
    (hlength : f.length = 4 ∨ f.length = 5 ∨ f.length = 6)
    (h : Packed f.toHdmiAnyInfoframe (vendorPayload f) buf size) :
    hdmiVendorAnyInfoframeUnpack buf size =
      vendorFields (fun i => buf (HDMI_INFOFRAME_HEADER_SIZE + i)) f.length := by
  have hsize := h.length_le
  obtain ⟨h0, h1, h2⟩ := h.header
  rw [htype] at h0
  rw [hversion] at h1
  rw [Nat.mod_eq_of_lt (by omega)] at h2
  have hbyte : ∀ k < 4, Buf.at (fun i => buf (HDMI_INFOFRAME_HEADER_SIZE + i)) k = ((vendorPayload f).getD k 0).toNat :=
    fun k hk => h.at_payload (by omega)
  rw [hdmiVendorAnyInfoframeUnpack, if_neg (by rw [HDMI_INFOFRAME_HEADER_SIZE]; omega), h0, h1, h2,
    if_neg (by simp only [HDMI_INFOFRAME_TYPE_VENDOR]; omega)]
  dsimp only
  rw [if_neg (by rw [HDMI_INFOFRAME_HEADER_SIZE]; omega), HDMI_INFOFRAME_HEADER_SIZE, h.checksum,
    if_neg (by simp), ← HDMI_INFOFRAME_HEADER_SIZE, hbyte 0 (by decide), hbyte 1 (by decide), hbyte 2 (by decide)]
  exact if_neg (by simp [vendorPayload, byte])

/-- The 3D data comes back only for the structures that transmit it. -/
theorem vendor_unpack {f : HdmiVendorInfoframe} (hcheck : hdmiVendorInfoframeCheckOnly f = .ok f)
    (hwidth : HdmiInfoframe.InWidth (.vendor f)) (h : Packed f.toHdmiAnyInfoframe (vendorPayload f) buf size) :
    hdmiVendorAnyInfoframeUnpack buf size =
      .ok { f with s3dExtData := if HDMI_3D_STRUCTURE_SIDE_BY_SIDE_HALF ≤ f.s3dStruct then f.s3dExtData else 0 } := by
  obtain ⟨hvic, hlow, hhigh, hext⟩ := hwidth
  rw [hdmiVendorInfoframeCheckOnly] at hcheck
  split_ifs at hcheck with hheader hone hlength
  simp only [not_or, not_not] at hheader hlength
  obtain ⟨htype, hversion, houi⟩ := hheader
  have hcases : f.length = 4 ∨ f.length = 5 ∨ f.length = 6 := by
    rw [hlength, hdmiVendorInfoframeLength]
    split_ifs <;> simp
  have hsize := h.length_le
  have hbyte : ∀ k < f.length,
      Buf.at (fun i => buf (HDMI_INFOFRAME_HEADER_SIZE + i)) k = ((vendorPayload f).getD k 0).toNat :=
    fun k hk => h.at_payload (by omega)
  rw [vendor_header htype hversion hcases h, vendorFields]
  clear h hcases
  obtain ⟨⟨type, version, length⟩, oui, vic, s3d, ext⟩ := f
  dsimp only [hdmiVendorInfoframeLength, vendorPayload] at *
  subst htype hversion houi
  simp only [HDMI_3D_STRUCTURE_SIDE_BY_SIDE_HALF, HDMI_3D_STRUCTURE_INVALID] at *
  obtain hinvalid | ⟨n, hn, rfl⟩ : s3d = -1 ∨ ∃ n : ℕ, n < 16 ∧ s3d = n :=
    (lt_or_ge s3d 0).imp (by omega) fun hpos => ⟨s3d.toNat, by omega, by omega⟩
  · -- no 3D structure: the video code, or nothing
    subst hinvalid
    by_cases hzero : vic = 0
    · subst hzero
      obtain rfl : length = 4 := hlength
      have hformat := hbyte 3 (by decide)
      simp only [ne_eq, not_true_eq_false, if_false, cons_append, nil_append, getD_cons_zero,
        getD_cons_succ, Nat.zero_shiftLeft, toNat_byte, Nat.zero_mod] at hformat
      simp [hformat]
    · obtain rfl : length = 5 := by simpa [hzero] using hlength
      have hformat := hbyte 3 (by decide)
      have hcode := hbyte 4 (by decide)
      simp only [ne_eq, not_true_eq_false, if_false, hzero, not_false_eq_true, if_true, cons_append,
        nil_append, getD_cons_zero, getD_cons_succ, toNat_byte, Nat.reduceShiftLeft, Nat.reduceMod,
        Nat.mod_eq_of_lt hvic] at hformat hcode
      simp [hformat, hcode]
  · have hnone : vic = 0 := by
      by_contra hne
      exact hone ⟨hne, by omega⟩
    subst hnone
    have hvalid : ¬(n : ℤ) = -1 := by omega
    have hstruct : ((n : ℤ) % 16).toNat = n := by omega
    by_cases hside : (8 : ℤ) ≤ n
    · obtain rfl : length = 6 := by simpa [hside] using hlength
      have hformat := hbyte 3 (by decide)
      have hstored := hbyte 4 (by decide)
      have hdata := hbyte 5 (by decide)
      have hmask : ext &&& 0xf = ext := and_mask 4 rfl hext
      simp only [ne_eq, hvalid, not_false_eq_true, if_true, hside, cons_append, nil_append,
        getD_cons_zero, getD_cons_succ, hstruct, hmask] at hformat hstored hdata
      simp only [hformat, hstored, hdata, nibble_byte n hn, nibble_byte ext hext]
      simp [byte, hside]
    · obtain rfl : length = 5 := by simpa [hside, hvalid] using hlength
      have hformat := hbyte 3 (by decide)
      have hstored := hbyte 4 (by decide)
      simp only [ne_eq, hvalid, not_false_eq_true, if_true, hside, if_false, cons_append, nil_append,
        getD_cons_zero, getD_cons_succ, hstruct] at hformat hstored
      simp only [hformat, hstored, nibble_byte n hn]
      simp [byte, hside]

theorem strlen_cases (buf : Buf) (size start : ℕ) :
    (∃ n, strlen buf size start = some n ∧ start + n < size ∧ buf (start + n) = 0) ∨
      (strlen buf size start = none ∧ ∀ n, start + n < size → buf (start + n) ≠ 0) := by
  cases hlen : strlen buf size start with
  | some n =>
    rw [strlen] at hlen
    have hmem := List.mem_range.mp (mem_of_find?_eq_some hlen)
    exact .inl ⟨n, rfl, by omega, by simpa using List.find?_some hlen⟩
  | none =>
    rw [strlen, List.find?_range_eq_none] at hlen
    exact .inr ⟨rfl, fun n hn => by simpa using hlen n (by omega)⟩

theorem copied_eq {m n start : ℕ} {a : Fin m → BitVec 8} (ha : ∀ i j, i < j → a i = 0 → a j = 0)
    (hbuf : ∀ i : Fin m, buf (start + i.val) = a i) (hend : buf (start + n) = 0) :
    copied buf start (min n m) = a := by
  funext i
  rw [copied]
  split_ifs with hlt
  · exact hbuf i
  · have hn : n ≤ i.val := by omega
    have hzero : a ⟨n, by omega⟩ = 0 := by rw [← hbuf, hend]
    rcases Nat.eq_or_lt_of_le hn with heq | hlt
    · rw [← hzero]
      exact congrArg a (Fin.ext heq)
    · exact (ha ⟨n, by omega⟩ i hlt hzero).symm

theorem getD_ofFn {m start : ℕ} (before after : List (BitVec 8)) (a : Fin m → BitVec 8) (hstart : before.length = start)
    (i : Fin m) : (before ++ (List.ofFn a ++ after)).getD (start + i.val) 0 = a i := by
  rw [getD_eq_getElem?_getD, List.getElem?_append_right (by omega), show start + i.val - before.length = i by omega,
    List.getElem?_append_left (by rw [length_ofFn]; exact i.isLt), List.getElem?_ofFn, dif_pos i.isLt]
  rfl

theorem spd_unpack {f : HdmiSpdInfoframe} (hcheck : hdmiSpdInfoframeCheck f = .ok f)
    (hwidth : HdmiInfoframe.InWidth (.spd f))
    (h : Packed f.toHdmiAnyInfoframe (List.ofFn f.vendor ++ List.ofFn f.product ++ [byte f.sdi]) buf size) :
    (HdmiInfoframe.Survives size (.spd f) ∧ hdmiSpdInfoframeUnpack buf size = .ok f) ∨
      (¬HdmiInfoframe.Survives size (.spd f) ∧ hdmiSpdInfoframeUnpack buf size = .error .overrun) := by
  obtain ⟨hsdi, hvendor, hproduct⟩ := hwidth
  rw [hdmiSpdInfoframeCheck] at hcheck
  split_ifs at hcheck with hheader
  simp only [not_or, not_not] at hheader
  obtain ⟨htype, hversion, hlength⟩ := hheader
  have hsize := h.length_le
  rw [hlength, HDMI_SPD_INFOFRAME_SIZE] at hsize
  -- where the strings and the byte behind them are
  have hv : ∀ i : Fin 8, buf (4 + i.val) = f.vendor i := by
    intro i
    rw [h.bytes _ (by omega) (by omega), append_assoc]
    exact getD_ofFn _ _ f.vendor rfl i
  have hp : ∀ i : Fin 16, buf (12 + i.val) = f.product i := by
    intro i
    rw [h.bytes _ (by omega) (by omega), append_assoc, ← append_assoc]
    exact getD_ofFn _ _ f.product (by rw [length_append, length_ofFn]; rfl) i
  have hs : buf 28 = byte f.sdi := by
    rw [h.bytes _ (by omega) (by omega)]
    simp
  have hbehind : 29 < size → buf 29 = 0 := by
    intro hlt
    rw [h.bytes _ hlt (by omega)]
    simp
  have hunpack : hdmiSpdInfoframeUnpack buf size =
      (hdmiSpdInfoframeInit buf size 4 12 >>= fun frame => .ok { frame with sdi := buf.at 28 }) := by
    rw [hdmiSpdInfoframeUnpack, h.headerOk htype hversion hlength (by decide), if_neg (by decide)]
    rfl
  rw [hunpack, hdmiSpdInfoframeInit]
  by_cases hsurvives : HdmiInfoframe.Survives size (.spd f)
  · refine .inl ⟨hsurvives, ?_⟩
    -- some byte behind the start of the product name is zero
    obtain ⟨z, hz, hlt, hzero⟩ : ∃ z, 12 ≤ z ∧ z < size ∧ buf z = 0 := by
      rcases hsurvives with hsdi0 | ⟨i, hi⟩ | hlarge
      · exact ⟨28, by decide, by omega, by rw [hs, hsdi0]; rfl⟩
      · exact ⟨12 + i.val, by omega, by omega, by rw [hp, hi]⟩
      · exact ⟨29, by decide, hlarge, hbehind hlarge⟩
    obtain ⟨n, hn, -, hnend⟩ | ⟨-, hno⟩ := strlen_cases buf size 4
    · obtain ⟨m, hm, -, hmend⟩ | ⟨-, hno⟩ := strlen_cases buf size 12
      · rw [hn, hm]
        dsimp only
        rw [copied_eq hvendor hv hnend, copied_eq hproduct hp hmend]
        have hback : buf.at 28 = f.sdi := by rw [Buf.at, hs, toNat_byte_of_lt hsdi]
        obtain ⟨⟨type, version, length⟩, vendor, product, sdi⟩ := f
        dsimp only at htype hversion hlength hback
        subst htype hversion hlength hback
        rfl
      · exact absurd (show buf (12 + (z - 12)) = 0 by rwa [Nat.add_sub_cancel' hz]) (hno _ (by omega))
    · exact absurd (show buf (4 + (z - 4)) = 0 by rwa [Nat.add_sub_cancel' (by omega)]) (hno _ (by omega))
  · refine .inr ⟨hsurvives, ?_⟩
    simp only [HdmiInfoframe.Survives, not_or, not_exists, HDMI_SPD_INFOFRAME_SIZE] at hsurvives
    obtain ⟨hsdi0, hfull, hexact⟩ := hsurvives
    have hnone : strlen buf size 12 = none := by
      obtain ⟨m, -, hlt, hmend⟩ | ⟨hnone, -⟩ := strlen_cases buf size 12
      · by_cases hin : m < 16
        · exact absurd ((hp ⟨m, hin⟩).symm.trans hmend) (hfull ⟨m, hin⟩)
        · obtain rfl : m = 16 := by omega
          rw [hs] at hmend
          exact absurd ((toNat_byte_of_lt hsdi).symm.trans (congrArg BitVec.toNat hmend)) hsdi0
      · exact hnone
    rw [hnone]
    cases strlen buf size 4 <;> rfl

end

/-! ### Packing and unpacking -/

/-- Packing `frame`, which its check turns into `frame'`, gives bytes with sum zero that unpack to `frame'`. -/
def RoundTrips (frame frame' : HdmiInfoframe) (buffer : Buf) (size : ℕ) : Prop :=
  ∃ buf, frame.pack buffer size = .ok (frame', buf, HDMI_INFOFRAME_HEADER_SIZE + frame'.any.length) ∧
    csum buf (HDMI_INFOFRAME_HEADER_SIZE + frame'.any.length) = 0 ∧ hdmiInfoframeUnpack buf size = .ok frame'

section

variable {frame frame' : HdmiInfoframe} {buffer : Buf} {size : ℕ}

theorem roundTrips_iff {payload : List (BitVec 8)} {C : Prop} (hcheck : frame.check = .ok frame')
    (hpack : frame'.packOnly buffer size = packFrame frame'.any payload buffer size)
    (hsize : HDMI_INFOFRAME_HEADER_SIZE + frame'.any.length ≤ size)
    (hunpack : ∀ buf, Packed frame'.any payload buf size → (hdmiInfoframeUnpack buf size = .ok frame' ↔ C)) :
    RoundTrips frame frame' buffer size ↔ C := by
  obtain ⟨buf, hbuf, hpacked⟩ := packFrame_ok frame'.any payload buffer hsize
  have hok : frame.pack buffer size = .ok (frame', buf, HDMI_INFOFRAME_HEADER_SIZE + frame'.any.length) := by
    rw [HdmiInfoframe.pack, hcheck]
    change frame'.packOnly buffer size >>= _ = _
    rw [hpack, hbuf]
    rfl
  rw [← hunpack buf hpacked]
  constructor
  · rintro ⟨buf', hbuf', -, hback⟩
    rw [hok] at hbuf'
    cases hbuf'
    exact hback
  · exact fun hback => ⟨buf, hok, hpacked.csum_zero, hback⟩

theorem ok_of_map_ok {α : Type} {x : Except ℤ α} {kind : α → HdmiInfoframe} (h : x.map kind = .ok frame') :
    ∃ g, x = .ok g ∧ frame' = kind g := by
  cases x with
  | error rc => cases h
  | ok g =>
    cases h
    exact ⟨g, rfl, rfl⟩

theorem unpack_of_type {any : HdmiAnyInfoframe} {payload : List (BitVec 8)} {buf : Buf} {type : ℕ}
    (h : Packed any payload buf size) (htype : any.type = type) (htype' : type < 256) :
    buf.at 0 = type ∧ ¬size < HDMI_INFOFRAME_HEADER_SIZE := by
  have hsize := h.length_le
  refine ⟨?_, by rw [HDMI_INFOFRAME_HEADER_SIZE]; omega⟩
  rw [h.header.1, htype, Nat.mod_eq_of_lt htype']

theorem hdmiAviInfoframeCheck_eq {f g : HdmiAviInfoframe} (h : hdmiAviInfoframeCheck f = .ok g) :
    f = g ∧ f.type = HDMI_INFOFRAME_TYPE_AVI := by
  rw [hdmiAviInfoframeCheck] at h
  split_ifs at h with hheader
  cases h
  exact ⟨rfl, not_not.mp fun hne => hheader (.inl hne)⟩

theorem avi_roundTrips {f : HdmiAviInfoframe} (hcheck : (HdmiInfoframe.avi f).check = .ok frame')
    (hwidth : frame'.InWidth) (hsize : HDMI_INFOFRAME_HEADER_SIZE + frame'.any.length ≤ size) :
    RoundTrips (.avi f) frame' buffer size ↔ frame'.Survives size := by
  obtain ⟨g, hf, rfl⟩ := ok_of_map_ok hcheck
  obtain ⟨rfl, htype⟩ := hdmiAviInfoframeCheck_eq hf
  refine roundTrips_iff hcheck (by rw [HdmiInfoframe.packOnly, hdmiAviInfoframePackOnly, hf]; rfl) hsize
    fun buf hpacked => ?_
  obtain ⟨h0, hlt⟩ := unpack_of_type hpacked htype (by decide)
  rw [hdmiInfoframeUnpack, if_neg hlt, h0, if_pos rfl, avi_unpack hf hwidth hpacked]
  exact iff_of_true rfl trivial

theorem hdmiDrmInfoframeCheck_eq {f g : HdmiDrmInfoframe} (h : hdmiDrmInfoframeCheck f = .ok g) :
    f = g ∧ f.type = HDMI_INFOFRAME_TYPE_DRM := by
  rw [hdmiDrmInfoframeCheck] at h
  split_ifs at h with hheader
  cases h
  exact ⟨rfl, not_not.mp fun hne => hheader (.inl hne)⟩

theorem drm_roundTrips {f : HdmiDrmInfoframe} (hcheck : (HdmiInfoframe.drm f).check = .ok frame')
    (hwidth : frame'.InWidth) (hsize : HDMI_INFOFRAME_HEADER_SIZE + frame'.any.length ≤ size) :
    RoundTrips (.drm f) frame' buffer size ↔ frame'.Survives size := by
  obtain ⟨g, hf, rfl⟩ := ok_of_map_ok hcheck
  obtain ⟨rfl, htype⟩ := hdmiDrmInfoframeCheck_eq hf
  refine roundTrips_iff hcheck rfl hsize fun buf hpacked => ?_
  obtain ⟨h0, hlt⟩ := unpack_of_type hpacked htype (by decide)
  rw [hdmiInfoframeUnpack, if_neg hlt, h0, if_neg (by decide), if_pos rfl, drm_unpack hf hwidth hpacked]
  exact iff_of_true rfl trivial

theorem hdmiSpdInfoframeCheck_eq {f g : HdmiSpdInfoframe} (h : hdmiSpdInfoframeCheck f = .ok g) :
    f = g ∧ f.type = HDMI_INFOFRAME_TYPE_SPD := by
  rw [hdmiSpdInfoframeCheck] at h
  split_ifs at h with hheader
  cases h
  exact ⟨rfl, not_not.mp fun hne => hheader (.inl hne)⟩

theorem spd_roundTrips {f : HdmiSpdInfoframe} (hcheck : (HdmiInfoframe.spd f).check = .ok frame')
    (hwidth : frame'.InWidth) (hsize : HDMI_INFOFRAME_HEADER_SIZE + frame'.any.length ≤ size) :
    RoundTrips (.spd f) frame' buffer size ↔ frame'.Survives size := by
  obtain ⟨g, hf, rfl⟩ := ok_of_map_ok hcheck
  obtain ⟨rfl, htype⟩ := hdmiSpdInfoframeCheck_eq hf
  refine roundTrips_iff hcheck (by rw [HdmiInfoframe.packOnly, hdmiSpdInfoframePackOnly, hf]; rfl) hsize
    fun buf hpacked => ?_
  obtain ⟨h0, hlt⟩ := unpack_of_type hpacked htype (by decide)
  rw [hdmiInfoframeUnpack, if_neg hlt, h0, if_neg (by decide), if_neg (by decide), if_pos rfl]
  obtain ⟨hsurvives, hback⟩ | ⟨hlost, hback⟩ := spd_unpack hf hwidth hpacked
  · rw [hback]
    exact iff_of_true rfl hsurvives
  · rw [hback]
    exact iff_of_false (fun heq => by cases heq) hlost

theorem hdmiAudioInfoframeCheck_eq {f g : HdmiAudioInfoframe} (h : hdmiAudioInfoframeCheck f = .ok g) :
    f = g ∧ f.type = HDMI_INFOFRAME_TYPE_AUDIO := by
  rw [hdmiAudioInfoframeCheck] at h
  split_ifs at h with hheader
  cases h
  exact ⟨rfl, not_not.mp fun hne => hheader (.inl hne)⟩

theorem audio_roundTrips {f : HdmiAudioInfoframe} (hcheck : (HdmiInfoframe.audio f).check = .ok frame')
    (hwidth : frame'.InWidth) (hsize : HDMI_INFOFRAME_HEADER_SIZE + frame'.any.length ≤ size) :
    RoundTrips (.audio f) frame' buffer size ↔ frame'.Survives size := by
  obtain ⟨g, hf, rfl⟩ := ok_of_map_ok hcheck
  obtain ⟨rfl, htype⟩ := hdmiAudioInfoframeCheck_eq hf
  refine roundTrips_iff hcheck (by rw [HdmiInfoframe.packOnly, hdmiAudioInfoframePackOnly, hf]; rfl) hsize
    fun buf hpacked => ?_
  obtain ⟨h0, hlt⟩ := unpack_of_type hpacked htype (by decide)
  rw [hdmiInfoframeUnpack, if_neg hlt, h0, if_neg (by decide), if_neg (by decide), if_neg (by decide), if_pos rfl,
    audio_unpack hf hwidth hpacked]
  change Except.ok (HdmiInfoframe.audio _) = .ok (.audio f) ↔ f.channels = 0
  rw [Except.ok.injEq, HdmiInfoframe.audio.injEq]
  constructor
  · intro heq
    have hchannels : f.channels - 1 = f.channels := congrArg HdmiAudioInfoframe.channels heq
    omega
  · intro hzero
    rw [hzero, Nat.zero_sub, ← hzero]

theorem hdmiVendorInfoframeCheckOnly_eq {f g : HdmiVendorInfoframe} (h : hdmiVendorInfoframeCheckOnly f = .ok g) :
    f = g ∧ f.type = HDMI_INFOFRAME_TYPE_VENDOR := by
  rw [hdmiVendorInfoframeCheckOnly] at h
  split_ifs at h with hheader
  cases h
  exact ⟨rfl, not_not.mp fun hne => hheader (.inl hne)⟩

theorem vendor_roundTrips {f : HdmiVendorInfoframe} (hcheck : (HdmiInfoframe.vendor f).check = .ok frame')
    (hwidth : frame'.InWidth) (hsize : HDMI_INFOFRAME_HEADER_SIZE + frame'.any.length ≤ size) :
    RoundTrips (.vendor f) frame' buffer size ↔ frame'.Survives size := by
  obtain ⟨g, hg, rfl⟩ := ok_of_map_ok hcheck
  obtain ⟨heq, htype⟩ := hdmiVendorInfoframeCheckOnly_eq hg
  rw [hdmiVendorInfoframeCheck, heq] at hg
  rw [heq] at htype
  refine roundTrips_iff hcheck (by rw [HdmiInfoframe.packOnly, hdmiVendorInfoframePackOnly, hg]; rfl) hsize
    fun buf hpacked => ?_
  obtain ⟨h0, hlt⟩ := unpack_of_type hpacked htype (by decide)
  rw [hdmiInfoframeUnpack, if_neg hlt, h0, if_neg (by decide), if_neg (by decide), if_neg (by decide),
    if_neg (by decide), if_pos rfl, vendor_unpack hg hwidth hpacked]
  change Except.ok (HdmiInfoframe.vendor _) = .ok (.vendor g) ↔ _ ∨ _
  rw [Except.ok.injEq, HdmiInfoframe.vendor.injEq]
  by_cases hside : HDMI_3D_STRUCTURE_SIDE_BY_SIDE_HALF ≤ g.s3dStruct
  · rw [if_pos hside]
    exact iff_of_true rfl (.inl hside)
  · rw [if_neg hside, or_iff_right hside]
    exact ⟨fun heq => (congrArg HdmiVendorInfoframe.s3dExtData heq).symm, fun hzero => by rw [← hzero]⟩

/-- A frame that passes its check and fits the wire survives packing and unpacking
exactly if it has nothing that the unpacker loses. -/
theorem infoframe_roundTrips_iff (hcheck : frame.check = .ok frame') (hwidth : frame'.InWidth)
    (hsize : HDMI_INFOFRAME_HEADER_SIZE + frame'.any.length ≤ size) :
    RoundTrips frame frame' buffer size ↔ frame'.Survives size := by
  cases frame with
  | avi f => exact avi_roundTrips hcheck hwidth hsize
  | spd f => exact spd_roundTrips hcheck hwidth hsize
  | audio f => exact audio_roundTrips hcheck hwidth hsize
  | vendor f => exact vendor_roundTrips hcheck hwidth hsize
  | drm f => exact drm_roundTrips hcheck hwidth hsize

end

/-- A vendor frame for side by side (half), before its check sets the length. -/
def sideBySide (length : ℕ) : HdmiInfoframe :=
  .vendor ⟨⟨HDMI_INFOFRAME_TYPE_VENDOR, 1, length⟩, HDMI_IEEE_OUI, 0, HDMI_3D_STRUCTURE_SIDE_BY_SIDE_HALF, 3⟩

theorem sideBySide_roundTrips :
    (sideBySide 4).check = .ok (sideBySide 6) ∧ (sideBySide 6).InWidth ∧
      RoundTrips (sideBySide 4) (sideBySide 6) (fun _ => 0xff) 10 := by
  have hcheck : (sideBySide 4).check = .ok (sideBySide 6) := rfl
  have hwidth : (sideBySide 6).InWidth := by
    change 0 < 256 ∧ -1 ≤ HDMI_3D_STRUCTURE_SIDE_BY_SIDE_HALF ∧ HDMI_3D_STRUCTURE_SIDE_BY_SIDE_HALF < 16 ∧ 3 < 16
    decide
  exact ⟨hcheck, hwidth, (infoframe_roundTrips_iff hcheck hwidth (by decide)).mpr (.inl le_rfl)⟩

/-- A plain PCM frame with a number of channels. -/
def pcm (channels : ℕ) : HdmiInfoframe :=
  .audio ⟨⟨ HDMI_INFOFRAME_TYPE_AUDIO, 1, HDMI_AUDIO_INFOFRAME_SIZE⟩, channels, 1, 1, 3, 0, 0, 0, false⟩

/-- Two channels come back as one. -/
theorem stereo_unpacks_to_mono :
    (∃ buf, (pcm 2).pack (fun _ => 0) 14 = .ok (pcm 2, buf, 14) ∧ hdmiInfoframeUnpack buf 14 = .ok (pcm 1)) ∧
      ¬RoundTrips (pcm 2) (pcm 2) (fun _ => 0) 14 := by
  have hpack : ∃ buf, (pcm 2).pack (fun _ => 0) 14 = .ok (pcm 2, buf, 14) ∧
      hdmiInfoframeUnpack buf 14 = .ok (pcm 1) := ⟨_, rfl, rfl⟩
  refine ⟨hpack, ?_⟩
  rintro ⟨buf, hbuf, -, hback⟩
  obtain ⟨buf', hbuf', hback'⟩ := hpack
  rw [hbuf'] at hbuf
  cases hbuf
  rw [hback'] at hback
  cases hback

end GfpDrivers.Hdmi
