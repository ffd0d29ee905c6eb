import HyperDerp.HdClient.RecvFrame

/-!
# Reassembly of frames over many calls

What a receiver is owed: whatever the reads bring, the frames come out in order,
the only failures are reads that brought nothing, and enough calls on a socket
whose reads suffice return every frame.
-/

namespace HyperDerp

open ByteStream (Source)

def okFrames (rs : List (Except ClientError ClientFrame)) : List ClientFrame :=
  rs.filterMap Except.toOption

@[simp] theorem okFrames_ok (f : ClientFrame) (rs : List (Except ClientError ClientFrame)) :
    okFrames (.ok f :: rs) = f :: okFrames rs := rfl

@[simp] theorem okFrames_error (e : ClientError) (rs : List (Except ClientError ClientFrame)) :
    okFrames (.error e :: rs) = okFrames rs := rfl

structure Reassembles (c : HdClient) (frames : List ClientFrame) : Prop where
  errors : ∀ (sock : Source Byte) (n : ℕ) (e : ClientError), sock.stream = encodeFrames frames →
    .error e ∈ recvCalls kHdMaxFramePayload n c sock → e = ⟨.ioFailed, "recv failed"⟩
  order : ∀ (sock : Source Byte) (n : ℕ), sock.stream = encodeFrames frames →
    okFrames (recvCalls kHdMaxFramePayload n c sock) <+: frames
  complete : ∀ (sock : Source Byte) (n : ℕ), sock.stream = encodeFrames frames → sock.Enough →
    frames.length + sock.timeouts ≤ n → okFrames (recvCalls kHdMaxFramePayload n c sock) = frames

theorem recvLoop_nothing {b : RecvBuf} (reads : List ℕ) {r : Received} (hb : b.unread = [])
    (hr : recvLoop kHdMaxFramePayload b [] reads = r) :
    r.result = .error ⟨.ioFailed, "recv failed"⟩ ∧ r.buf.unread = [] ∧ r.sock.stream = [] := by
  have hnone : b.nextFrame kHdMaxFramePayload = none := RecvBuf.nextFrame_nil hb
  have hspace : b.compact.space ≠ 0 := by
    rw [RecvBuf.space_compact, hb]
    decide
  cases reads with
  | nil =>
    rw [recvLoop_nil hnone hspace] at hr
    subst hr
    exact ⟨rfl, by rw [RecvBuf.unread_compact, hb], rfl⟩
  | cons n reads =>
    rw [recvLoop_timeout hnone hspace (.inr rfl)] at hr
    subst hr
    exact ⟨rfl, by rw [RecvBuf.unread_compact, hb], rfl⟩

structure Coming (c : HdClient) (sock : Source Byte) (frames : List ClientFrame) : Prop where
  bytes : c.unread ++ sock.stream = encodeFrames frames
  valid : ∀ f ∈ frames, f.Valid
  fits : ∀ f ∈ frames, f.Fits

variable {c : HdClient} {sock : Source Byte} {f : ClientFrame} {frames : List ClientFrame}

theorem Coming.tail {c' : HdClient} {sock' : Source Byte} {fs : List ClientFrame}
    (h : Coming c sock (f :: fs)) (hbytes : c'.unread ++ sock'.stream = encodeFrames fs) :
    Coming c' sock' fs :=
  ⟨hbytes, fun g hg => h.valid g (List.mem_cons_of_mem _ hg),
    fun g hg => h.fits g (List.mem_cons_of_mem _ hg)⟩

theorem Coming.call (h : Coming c sock frames)
    {r : Except ClientError ClientFrame × HdClient × Source Byte}
    (hr : hdClientRecvFrame c kHdMaxFramePayload sock = r) :
    (∃ f fs, frames = f :: fs ∧ r.1 = .ok f ∧ Coming r.2.1 r.2.2 fs ∧ sock.Later 0 r.2.2) ∨
      (r.1 = .error ⟨.ioFailed, "recv failed"⟩ ∧ Coming r.2.1 r.2.2 frames ∧
        (frames ≠ [] → sock.Later 1 r.2.2)) := by
  obtain ⟨stream, reads⟩ := sock
  have hbytes : (c.recvBuf.getD .empty).unread ++ stream = encodeFrames frames := h.bytes
  subst hr
  cases frames with
  | nil =>
    right
    obtain ⟨hb, rfl⟩ := List.append_eq_nil_iff.mp hbytes
    obtain ⟨hres, hbuf, hstream⟩ := recvLoop_nothing reads hb rfl
    refine ⟨hres, ⟨?_, h.valid, h.fits⟩, fun hne => absurd rfl hne⟩
    exact List.append_eq_nil_iff.mpr ⟨hbuf, hstream⟩
  | cons f fs =>
    have hf : f.Valid := h.valid f (List.mem_cons_self ..)
    have hfits : f.Fits := h.fits f (List.mem_cons_self ..)
    rcases recvLoop_frame hf hfits reads _ stream hbytes rfl with
      ⟨hres, htail, hlater⟩ | ⟨hres, hkept, hlater⟩
    · exact .inl ⟨f, fs, rfl, hres, h.tail htail, hlater⟩
    · exact .inr ⟨hres, ⟨hkept, h.valid, h.fits⟩, fun _ => hlater⟩

theorem Coming.errors {n : ℕ} (h : Coming c sock frames) {e : ClientError}
    (he : .error e ∈ recvCalls kHdMaxFramePayload n c sock) : e = ⟨.ioFailed, "recv failed"⟩ := by
  induction n generalizing c sock frames with
  | zero => simp [recvCalls] at he
  | succ n ih =>
    rw [recvCalls, List.mem_cons] at he
    rcases h.call rfl with ⟨f, fs, rfl, hres, hnext, _⟩ | ⟨hres, hnext, _⟩
    · rcases he with heq | he
      · rw [hres] at heq
        cases heq
      · exact ih hnext he
    · rcases he with heq | he
      · rw [hres] at heq
        cases heq
        rfl
      · exact ih hnext he

theorem Coming.order (n : ℕ) (h : Coming c sock frames) :
    okFrames (recvCalls kHdMaxFramePayload n c sock) <+: frames := by
  induction n generalizing c sock frames with
  | zero => exact List.nil_prefix
  | succ n ih =>
    rw [recvCalls]
    rcases h.call rfl with ⟨f, fs, rfl, hres, hnext, _⟩ | ⟨hres, hnext, _⟩
    · rw [hres, okFrames_ok]
      exact List.cons_prefix_cons.mpr ⟨rfl, ih hnext⟩
    · rw [hres, okFrames_error]
      exact ih hnext

theorem Coming.complete {n : ℕ} (h : Coming c sock frames) (henough : sock.Enough)
    (hn : frames.length + sock.timeouts ≤ n) :
    okFrames (recvCalls kHdMaxFramePayload n c sock) = frames := by
  induction n generalizing c sock frames with
  | zero =>
    have hnil : frames = [] := List.eq_nil_of_length_eq_zero (by omega)
    rw [hnil]
    rfl
  | succ n ih =>
    rcases frames with _ | ⟨f, fs⟩
    · exact List.prefix_nil.mp (h.order (n + 1))
    · rw [recvCalls]
      rcases h.call rfl with ⟨g, gs, heq, hres, hnext, hlater⟩ | ⟨hres, hnext, hlater⟩
      · cases heq
        obtain ⟨henough', hle⟩ := hlater henough
        rw [List.length_cons] at hn
        rw [hres, okFrames_ok, ih hnext henough' (by omega)]
      · obtain ⟨henough', hle⟩ := hlater (List.cons_ne_nil f fs) henough
        rw [hres, okFrames_error, ih hnext henough' (by omega)]

theorem reassembles_of_fits (hc : c.unread = []) (hvalid : ∀ f ∈ frames, f.Valid)
    (hfits : ∀ f ∈ frames, f.Fits) : Reassembles c frames := by
  have hcoming {sock : Source Byte} (hs : sock.stream = encodeFrames frames) : Coming c sock frames :=
    ⟨by rw [hc, hs, List.nil_append], hvalid, hfits⟩
  exact ⟨fun sock n e hs => (hcoming hs).errors, fun sock n hs => (hcoming hs).order n,
    fun sock n hs => (hcoming hs).complete⟩

/-! ### What comes out -/

theorem recvLoop_result_ok {bufSize : ℕ} (reads : List ℕ) (b : RecvBuf) (stream : Bytes)
    (h : (recvLoop bufSize b stream reads).result = .ok f) :
    f.Fits ∧ (b.unread ≠ [] → f.type = hdReadFrameType b.unread) := by
  induction reads generalizing b stream with
  | nil =>
    unfold recvLoop at h
    split at h
    · next f' b' hnext =>
      cases h
      obtain ⟨hfits, htype⟩ := RecvBuf.nextFrame_ok hnext
      exact ⟨hfits, fun _ => htype⟩
    · cases h
    · split at h <;> cases h
  | cons n reads ih =>
    rw [recvLoop] at h
    split at h
    · next f' b' hnext =>
      cases h
      obtain ⟨hfits, htype⟩ := RecvBuf.nextFrame_ok hnext
      exact ⟨hfits, fun _ => htype⟩
    · cases h
    · split at h
      · cases h
      split at h
      · cases h
      obtain ⟨hfits, htype⟩ := ih _ _ h
      refine ⟨hfits, fun hne => ?_⟩
      rw [RecvBuf.unread_fill, RecvBuf.unread_compact] at htype
      rw [htype (by simp [hne])]
      unfold hdReadFrameType
      cases hu : b.unread with
      | nil => exact absurd hu hne
      | cons x xs => rfl

theorem okFrames_fits {bufSize n : ℕ} (h : f ∈ okFrames (recvCalls bufSize n c sock)) : f.Fits := by
  induction n generalizing c sock with
  | zero => simp [okFrames, recvCalls] at h
  | succ n ih =>
    rw [recvCalls] at h
    cases hres : (hdClientRecvFrame c bufSize sock).1 with
    | error e =>
      rw [hres, okFrames_error] at h
      exact ih h
    | ok g =>
      rw [hres, okFrames_ok, List.mem_cons] at h
      rcases h with rfl | h
      · exact (recvLoop_result_ok _ _ _ hres).1
      · exact ih h

def bytewise (stream : Bytes) : Source Byte := ⟨stream, List.replicate stream.length 1⟩

theorem bytewise_enough (stream : Bytes) : (bytewise stream).Enough := by
  rw [Source.Enough, Source.arrivals, bytewise, List.countP_replicate]
  simp

theorem bytewise_timeouts (stream : Bytes) : (bytewise stream).timeouts = 0 := by
  rw [Source.timeouts, bytewise, List.countP_replicate]
  simp

theorem Reassembles.fits (h : Reassembles c frames) :
    ∀ f ∈ frames, f.Fits := by
  intro f hf
  have hall := h.complete (bytewise (encodeFrames frames)) frames.length rfl (bytewise_enough _)
    (by rw [bytewise_timeouts, Nat.add_zero])
  rw [← hall] at hf
  exact okFrames_fits hf

/-- A client with an empty buffer reassembles every stream of valid frames that fit the buffer
with their headers, and no other. -/
theorem reassembles_iff {c : HdClient} {frames : List ClientFrame} (hc : c.unread = [])
    (hvalid : ∀ f ∈ frames, f.Valid) : Reassembles c frames ↔ ∀ f ∈ frames, f.Fits :=
  ⟨Reassembles.fits, reassembles_of_fits hc hvalid⟩

theorem reassembles_data_ping :
    Reassembles {} [⟨.kData, [1, 2, 3]⟩, ⟨.kPing, [0, 0, 0, 0, 0, 0, 0, 0]⟩] :=
  (reassembles_iff rfl (by decide)).mpr (by decide)

theorem long_data {payload : Bytes} (hlen : payload.length = 65533) :
    (⟨.kData, payload⟩ : ClientFrame).Valid ∧ ¬(⟨.kData, payload⟩ : ClientFrame).Fits := by
  constructor
  · simp [ClientFrame.Valid, hdIsValidPayloadLen, kHdMaxFramePayload, hlen]
  · simp [ClientFrame.Fits, kHdFrameHeaderSize, kRecvBufSize, hlen]

theorem not_reassembles_65533 : ¬ ∀ frames : List ClientFrame, (∀ f ∈ frames, f.Valid) →
    Reassembles {} frames := by
  intro h
  obtain ⟨payload, hlen⟩ : ∃ payload : Bytes, payload.length = 65533 :=
    ⟨List.replicate 65533 0, List.length_replicate⟩
  obtain ⟨hvalid, hlong⟩ := long_data hlen
  have hfits := (h [⟨.kData, payload⟩] (List.forall_mem_singleton.mpr hvalid)).fits
  exact hlong (hfits _ (List.mem_singleton_self _))

end HyperDerp
