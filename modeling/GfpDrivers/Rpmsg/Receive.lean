import Mathlib.Data.Multiset.AddSub
import GfpDrivers.Basic

/-!
Receiving messages over virtio (`virtio_rpmsg_bus.c`). The remote processor fills
a buffer and reports a length for it; the header in the buffer says how long the
message is, and for which endpoint. A buffer that was dealt with is given back
to the receive queue.

The remote and the users of the endpoints do as they like: each completion comes
with its own length, header and set of endpoints at this time. Adding a buffer to
the receive queue succeeds.
-/

namespace GfpDrivers.Rpmsg

/-- `struct rpmsg_hdr`, as the remote has written it. -/
structure RpmsgHdr where
  src : BitVec 32
  dst : BitVec 32
  reserved : BitVec 32
  len : BitVec 16
  flags : BitVec 16

/-- `sizeof(struct rpmsg_hdr)` -/
def sizeofHdr : ℕ := 16

/-- `struct virtproc_info`, as far as receiving needs it. -/
structure VirtprocInfo where
  bufSize : ℕ
  littleEndian : Bool

/-- `__rpmsg16_to_cpu` -/
def rpmsg16ToCpu (littleEndian : Bool) (val : BitVec 16) : BitVec 16 :=
  if littleEndian then val else val.extractLsb' 0 8 ++ val.extractLsb' 8 8

/-- `__rpmsg32_to_cpu` -/
def rpmsg32ToCpu (littleEndian : Bool) (val : BitVec 32) : BitVec 32 :=
  if littleEndian then val
  else val.extractLsb' 0 8 ++ val.extractLsb' 8 8 ++ val.extractLsb' 16 8 ++ val.extractLsb' 24 8

/-- A buffer that the remote has completed, the length that it reports, and the
endpoints when the message is looked at: an endpoint has a callback or not. -/
structure Completion (β : Type) where
  buf : β
  len : BitVec 32
  hdr : RpmsgHdr
  endpoints : BitVec 32 → Option Bool

/-- The payload that a callback gets, with the length that was reported. -/
structure Payload where
  msgLen : ℕ
  len : ℕ
  src : BitVec 32
deriving DecidableEq

/-- The buffers in the receive queue, and the payloads that were delivered. -/
structure Received (β : Type) where
  rvq : Multiset β
  delivered : List Payload

variable {β : Type}

section Model

variable (vrp : VirtprocInfo)

/-- The length that the header gives. -/
def Completion.msgLen (msg : Completion β) : ℕ := (rpmsg16ToCpu vrp.littleEndian msg.hdr.len).toNat

/-- The message goes to an endpoint with a callback. -/
def Completion.hasCallback (msg : Completion β) : Bool :=
  msg.endpoints (rpmsg32ToCpu vrp.littleEndian msg.hdr.dst) = some true

def Completion.payload (msg : Completion β) : Payload :=
  ⟨msg.msgLen vrp, msg.len.toNat, rpmsg32ToCpu vrp.littleEndian msg.hdr.src⟩

/-- `rpmsg_recv_single`. The difference is one of `size_t`. -/
def rpmsgRecvSingle (s : Received β) (msg : Completion β) : Received β × ℤ :=
  if vrp.bufSize < msg.len.toNat ∨ (msg.len.toNat + 2 ^ 64 - sizeofHdr) % 2 ^ 64 < msg.msgLen vrp then
    (s, -EINVAL)
  else
    let s :=
      if msg.hasCallback vrp then { s with delivered := s.delivered ++ [msg.payload vrp] } else s
    ({ s with rvq := msg.buf ::ₘ s.rvq }, 0)

variable [DecidableEq β]

/-- `virtqueue_get_buf` takes the buffer out of the queue. -/
def virtqueueGetBuf (s : Received β) (msg : Completion β) : Received β := { s with rvq := s.rvq.erase msg.buf }

/-- `rpmsg_recv_done`, where the queue has these completions one after another. -/
def rpmsgRecvDone (s : Received β) : List (Completion β) → Received β
  | [] => s
  | msg :: rest =>
      let res := rpmsgRecvSingle vrp (virtqueueGetBuf s msg) msg
      if res.2 ≠ 0 then res.1 else rpmsgRecvDone res.1 rest

/-- A payload lies in what was reported, and that in the buffer. -/
def Payload.InBuffer (p : Payload) : Prop := sizeofHdr + p.msgLen ≤ p.len ∧ p.len ≤ vrp.bufSize

/-- What a run of `rpmsg_recv_done` owes: each payload is in its buffer, and all
buffers are back in the queue at the end of each call. -/
def SafeRun (rvq : Multiset β) : List (List (Completion β)) → Prop
  | [] => True
  | msgs :: calls =>
      let res := rpmsgRecvDone vrp ⟨rvq, []⟩ msgs
      (∀ p ∈ res.delivered, p.InBuffer vrp) ∧ res.rvq = rvq ∧ SafeRun res.rvq calls

omit [DecidableEq β] in
/-- The reported length is in the buffer and holds the header and the message; or
it is too short for a header, and nobody listens. -/
def Completion.Proper (msg : Completion β) : Prop :=
  msg.len.toNat ≤ vrp.bufSize ∧
    (sizeofHdr + msg.msgLen vrp ≤ msg.len.toNat ∨ msg.len.toNat < sizeofHdr ∧ msg.hasCallback vrp = false)

end Model

variable {vrp : VirtprocInfo} {s : Received β} {msg : Completion β} {msgs : List (Completion β)}
  {rvq : Multiset β}

theorem msgLen_lt (vrp : VirtprocInfo) (msg : Completion β) : msg.msgLen vrp < 2 ^ 16 := (rpmsg16ToCpu vrp.littleEndian msg.hdr.len).isLt

/-- The message is refused, and its buffer stays out of the queue. -/
def Completion.Refused (vrp : VirtprocInfo) (msg : Completion β) : Prop :=
  vrp.bufSize < msg.len.toNat ∨ sizeofHdr ≤ msg.len.toNat ∧ msg.len.toNat < sizeofHdr + msg.msgLen vrp

/-- The check accepts what fits, and also what is shorter than a header: there the
difference wraps around. -/
theorem refused_iff : msg.Refused vrp ↔
    vrp.bufSize < msg.len.toNat ∨ (msg.len.toNat + 2 ^ 64 - sizeofHdr) % 2 ^ 64 < msg.msgLen vrp := by
  have hmsg := msgLen_lt vrp msg
  have hlen := msg.len.isLt
  unfold Completion.Refused sizeofHdr
  omega

theorem rpmsgRecvSingle_of_refused (h : msg.Refused vrp) : rpmsgRecvSingle vrp s msg = (s, -EINVAL) :=
  if_pos ((refused_iff).mp h)

theorem rpmsgRecvSingle_of_accepted (h : ¬msg.Refused vrp) :
    rpmsgRecvSingle vrp s msg = (⟨msg.buf ::ₘ s.rvq,
      s.delivered ++ if msg.hasCallback vrp then [msg.payload vrp] else []⟩, 0) := by
  unfold rpmsgRecvSingle
  rw [if_neg ((refused_iff).not.mp h)]
  cases msg.hasCallback vrp <;> simp

variable [DecidableEq β]

theorem delivered_subset (p : Payload) (hp : p ∈ s.delivered) : p ∈ (rpmsgRecvDone vrp s msgs).delivered := by
  induction msgs generalizing s with
  | nil => exact hp
  | cons msg msgs ih =>
    rw [rpmsgRecvDone]
    by_cases href : msg.Refused vrp
    · rw [rpmsgRecvSingle_of_refused href]
      exact hp
    · rw [rpmsgRecvSingle_of_accepted href]
      exact ih (List.mem_append_left _ hp)

/-- One call keeps all payloads in their buffers and brings all buffers back
exactly if all completions are proper. -/
theorem rpmsgRecvDone_safe_iff (hin : ∀ msg ∈ msgs, msg.buf ∈ s.rvq) (hs : ∀ p ∈ s.delivered, p.InBuffer vrp) :
    (∀ p ∈ (rpmsgRecvDone vrp s msgs).delivered, p.InBuffer vrp) ∧ (rpmsgRecvDone vrp s msgs).rvq = s.rvq ↔
      ∀ msg ∈ msgs, msg.Proper vrp := by
  induction msgs generalizing s with
  | nil => simpa [rpmsgRecvDone] using hs
  | cons msg msgs ih =>
    rw [List.forall_mem_cons] at hin ⊢
    rw [rpmsgRecvDone]
    by_cases href : msg.Refused vrp
    · -- the buffer is lost
      rw [rpmsgRecvSingle_of_refused href]
      have hlost : (virtqueueGetBuf s msg).rvq ≠ s.rvq := by
        intro heq
        have hcard := Multiset.card_erase_lt_of_mem hin.1
        rw [virtqueueGetBuf] at heq
        dsimp only at heq
        rw [heq] at hcard
        omega
      refine iff_of_false (fun h => hlost h.2) fun h => ?_
      obtain ⟨hlen, hfit⟩ := h.1
      unfold Completion.Refused at href
      omega
    · rw [rpmsgRecvSingle_of_accepted href]
      have hback : msg.buf ::ₘ (virtqueueGetBuf s msg).rvq = s.rvq := Multiset.cons_erase hin.1
      rw [hback]
      by_cases hproper : msg.Proper vrp
      · rw [if_neg (by simp)]
        have hmore : ∀ p ∈ s.delivered ++ if msg.hasCallback vrp then [msg.payload vrp] else [],
            p.InBuffer vrp := by
          intro p hp
          rcases List.mem_append.mp hp with hp | hp
          · exact hs p hp
          · cases hcb : msg.hasCallback vrp with
            | false => simp [hcb] at hp
            | true =>
              obtain rfl : p = msg.payload vrp := by simpa [hcb] using hp
              obtain ⟨hlen, hfit⟩ := hproper
              simp only [hcb, Bool.true_eq_false, and_false, or_false] at hfit
              exact ⟨hfit, hlen⟩
        have hnext := ih (s := ⟨s.rvq, s.delivered ++ if msg.hasCallback vrp then [msg.payload vrp] else []⟩)
          hin.2 hmore
        exact hnext.trans (and_iff_right hproper).symm
      · -- the message is too long for what was reported, and somebody gets it
        refine iff_of_false (fun h => hproper ?_) fun h => hproper h.1
        rw [if_neg (by simp)] at h
        unfold Completion.Refused at href
        refine ⟨by omega, ?_⟩
        cases hcb : msg.hasCallback vrp with
        | false =>
          rcases Nat.lt_or_ge msg.len.toNat sizeofHdr with hshort | hlong
          · exact .inr ⟨hshort, rfl⟩
          · exact .inl (by omega)
        | true =>
          have hp := h.1 (msg.payload vrp) (delivered_subset _ (by simp [hcb]))
          exact .inl hp.1

/-- A run is safe exactly if all its completions are proper. -/
theorem safeRun_iff_proper {calls : List (List (Completion β))}
    (hin : ∀ msgs ∈ calls, ∀ msg ∈ msgs, msg.buf ∈ rvq) :
    SafeRun vrp rvq calls ↔ ∀ msgs ∈ calls, ∀ msg ∈ msgs, msg.Proper vrp := by
  induction calls with
  | nil => simp [SafeRun]
  | cons msgs calls ih =>
      rw [List.forall_mem_cons] at hin ⊢
      rw [SafeRun, ← rpmsgRecvDone_safe_iff (s := ⟨rvq, []⟩) hin.1 (by simp), and_assoc]
      refine and_congr_right fun _ => and_congr_right fun hrvq => ?_
      rw [hrvq]
      exact ih hin.2

/-- A completion of a queue with one buffer of 512 bytes, whose message goes to an
endpoint with a callback. -/
def oneMessage (len : BitVec 32) (msgLen : BitVec 16) : Completion Unit :=
  ⟨(), len, ⟨1, 2, 0, msgLen, 0⟩, fun _ => some true⟩

theorem safeRun_of_message : SafeRun ⟨512, true⟩ {()} [[oneMessage 20 4]] :=
  (safeRun_iff_proper (by decide)).mpr (by simp [Completion.Proper, oneMessage, Completion.msgLen, rpmsg16ToCpu,
    sizeofHdr])

/-- A length below the size of the header passes the check, and the payload goes
beyond what was reported. A message that is refused is not given back. -/
theorem short_message_delivered_refused_message_lost :
    ((rpmsgRecvDone ⟨512, true⟩ ⟨{()}, []⟩ [oneMessage 8 600]).delivered = [⟨600, 8, 1⟩] ∧
      ¬SafeRun ⟨512, true⟩ {()} [[oneMessage 8 600]]) ∧
    (rpmsgRecvDone ⟨512, true⟩ ⟨{()}, []⟩ [oneMessage 600 4]).rvq = 0 ∧
      ¬SafeRun ⟨512, true⟩ {()} [[oneMessage 600 4]] := by
  have hshort : (rpmsgRecvDone ⟨512, true⟩ ⟨{()}, []⟩ [oneMessage 8 600]).delivered = [⟨600, 8, 1⟩] := by decide
  have hlost : (rpmsgRecvDone ⟨512, true⟩ ⟨{()}, []⟩ [oneMessage 600 4]).rvq = 0 := by decide
  refine ⟨⟨hshort, fun h => ?_⟩, hlost, fun h => ?_⟩
  · have hin := h.1 ⟨600, 8, 1⟩ (by rw [hshort]; exact List.mem_singleton_self _)
    exact absurd hin.1 (by decide)
  · exact absurd (hlost.symm.trans h.2.1) (by decide)

end GfpDrivers.Rpmsg
