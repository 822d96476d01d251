import Memtype.Proofs.Buffer
import Memtype.Proofs.Transfer

/-! A whole write over USB, packet by packet, and the READ that fetches it back. -/

namespace Memtype

open Lib

theorem findEosLoop_none {m : Mem} {n : ℕ} {off : UInt16} :
    findEosLoop m n off = none ↔ ∀ i < n, m (off + UInt16.ofNat i) ≠ 0 := by
  induction n generalizing off with
  | zero => simp [findEosLoop]
  | succ n ih =>
    have hadd (i : ℕ) : off + 1 + UInt16.ofNat i = off + UInt16.ofNat (i + 1) := by
      rw [UInt16.add_assoc, UInt16.add_comm 1, UInt16.ofNat_add]
      rfl
    have h0 : off + UInt16.ofNat 0 = off := UInt16.add_zero _
    unfold findEosLoop
    split_ifs with h
    · refine iff_of_false nofun fun hn => hn 0 (Nat.succ_pos n) ?_
      rwa [h0]
    · rw [ih]
      constructor
      · intro hn i hi
        cases i with
        | zero => rwa [h0]
        | succ i =>
          rw [← hadd]
          exact hn i (by omega)
      · intro hn i hi
        rw [hadd]
        exact hn (i + 1) (by omega)

/-- The search for a NUL ends when there is one anywhere in flash. -/
theorem findEos_none {m : Mem} {off : UInt16} : crdFindEos m off = none ↔ ∀ a, m a ≠ 0 := by
  unfold crdFindEos
  rw [findEosLoop_none]
  refine ⟨fun h a => ?_, fun h i _ => h _⟩
  have ha := h (a - off).toNat (UInt16.toNat_lt _)
  rwa [UInt16.ofNat_toNat, UInt16.add_comm, UInt16.sub_add_cancel] at ha

theorem crdInit_returns (L : Layout) (d : Device) :
    (crdInit L d).returns = true ↔ ∃ a, d.flash.mem a = 0 := by
  unfold crdInit crdLoadCredential
  dsimp only
  split
  · next hn =>
    refine iff_of_false (by simp) fun ⟨a, ha⟩ => findEos_none.mp hn a ha
  · next v hv =>
    refine iff_of_true rfl ?_
    by_contra hn
    rw [findEos_none.mpr fun a ha => hn ⟨a, ha⟩] at hv
    exact absurd hv nofun

/-- What may come between two packets: requests, and passes of the main loop without a
button. -/
def Event.inGap : Event → Bool
  | .setup _ | .writeTask | .printUpdate | .ledTask | .background _ => true
  | _ => false

/-- A WRITE command and its data packets. After each packet there is at least one GET_REPORT
and after it one `UCP_WriteTask`, and any number of others. -/
structure WriteSession where
  cmd : Bytes 8
  packets : ℕ → Bytes 8
  first : List Event
  after : ℕ → List Event
  isWrite : cmd 0 = ucpCmdWrite
  pos : 1 ≤ (word cmd 3 4).toNat
  fit : (word cmd 1 2).toNat + (word cmd 3 4).toNat ≤ maxCredFlashSize
  first_gap : ∀ e ∈ first, e.inGap = true
  after_gap : ∀ j, ∀ e ∈ after j, e.inGap = true
  after_handover : ∀ j, [Event.getReport 2, .writeTask].Sublist (after j)

namespace WriteSession

variable (w : WriteSession)

def offset : ℕ := (word w.cmd 1 2).toNat

def size : ℕ := (word w.cmd 3 4).toNat

def count : ℕ := (w.size + 7) / 8

def payload (i : ℕ) : UInt8 := w.packets (i / 8) (Fin.ofNat 8 i)

theorem payload_packet (j : ℕ) (i : Fin 8) : w.payload (8 * j + i) = w.packets j i := by
  unfold payload
  rw [show (8 * j + i) / 8 = j by omega]
  congr 1
  apply Fin.ext
  rw [Fin.val_ofNat]
  omega

def sends : ℕ → List Event
  | 0 => []
  | n + 1 => sends n ++ .write (w.packets n) 8 :: w.after n

def data : List Event := w.first ++ w.sends w.count

def events : List Event := .write w.cmd 8 :: w.data

/-- Some packets have been consumed, and the protocol is `IDLE` exactly if it is all of them. -/
def Progress (d : Device) : Prop :=
  ∃ k ≤ w.count, sinceOpen Call.copied d.calls = (List.range k).map w.packets ∧
    d.ucp.ucpState = if k < w.count then .writting else .idle

structure Open (L : Layout) (m : Mem) (j : ℕ) (d : Device) : Prop where
  transfer : Transfer L m w.offset w.size (8 * j) w.payload d
  lt : 8 * j < w.size
  state : d.ucp.ucpState = .writting
  copied : sinceOpen Call.copied d.calls = (List.range j).map w.packets

structure Ended (L : Layout) (m : Mem) (d : Device) : Prop where
  mem : d.flash.mem = m.write (L.credentials + UInt16.ofNat w.offset) w.size w.payload
  state : d.ucp.ucpState = .idle
  copied : sinceOpen Call.copied d.calls = (List.range w.count).map w.packets

/-- `CRD_Init` looks for a NUL in vain. -/
def Spun (L : Layout) (m : Mem) (d : Device) : Prop := w.Ended L m d ∧ ∀ a, d.flash.mem a ≠ 0

/-- `j` packets consumed and none pending. -/
def Between (L : Layout) (m : Mem) (j : ℕ) (d : Device) : Prop :=
  (d.ucp.usbWrite = false ∧ d.ucp.usbWriteAccepted = false) ∧
    (w.Open L m j d ∨ (w.size ≤ 8 * j ∧ j ≤ w.count) ∧ w.Ended L m d ∧ ∃ a, d.flash.mem a = 0)

/-- Packet `j` has been sent: at `i = 0` it may be anywhere on its way, at `1` it has been
passed on, at `2` it has been consumed. -/
def Sent (L : Layout) (m : Mem) (j i : ℕ) (d : Device) : Prop :=
  (i = 0 ∧ w.Open L m j d ∧ d.ucp.customReport = w.packets j ∧ d.ucp.usbWrite = false ∧
    d.ucp.usbWriteAccepted = true) ∨
  (i ≤ 1 ∧ w.Open L m j d ∧ d.ucp.customReport = w.packets j ∧ d.ucp.usbWrite = true ∧
    d.ucp.usbWriteAccepted = false) ∨
  w.Between L m (j + 1) d

end WriteSession

section

variable {w : WriteSession} {L : Layout} {m : Mem} {j i : ℕ} {d d' : Device}

namespace WriteSession

theorem count_spec : w.size ≤ 8 * w.count ∧ 8 * w.count < w.size + 8 := by
  unfold count
  omega

theorem Open.lt_count (h : w.Open L m j d) : j < w.count := by
  have h1 := h.lt
  have h2 := (count_spec (w := w)).1
  omega

theorem Open.congr (h : w.Open L m j d) (hf : d'.flash = d.flash) (hu : d'.ucp = d.ucp)
    (hc : sinceOpen Call.copied d'.calls = sinceOpen Call.copied d.calls) : w.Open L m j d' where
  transfer := h.transfer.of_eq (by rw [hf]) (by rw [hu]) (by rw [hu]) (by rw [hu]) (by rw [hu])
    (by rw [hu])
  lt := h.lt
  state := by rw [hu, h.state]
  copied := by rw [hc, h.copied]

theorem Ended.congr (h : w.Ended L m d) (hf : d'.flash = d.flash) (hu : d'.ucp = d.ucp)
    (hc : sinceOpen Call.copied d'.calls = sinceOpen Call.copied d.calls) : w.Ended L m d' where
  mem := by rw [hf, h.mem]
  state := by rw [hu, h.state]
  copied := by rw [hc, h.copied]

theorem Between.congr (h : w.Between L m j d) (hf : d'.flash = d.flash) (hu : d'.ucp = d.ucp)
    (hc : sinceOpen Call.copied d'.calls = sinceOpen Call.copied d.calls) : w.Between L m j d' := by
  unfold Between
  rw [hu, hf]
  refine ⟨h.1, ?_⟩
  rcases h.2 with ho | ⟨hn, he, h0⟩
  · exact .inl (ho.congr hf hu hc)
  · exact .inr ⟨hn, he.congr hf hu hc, h0⟩

theorem Sent.congr (h : w.Sent L m j i d) (hf : d'.flash = d.flash) (hu : d'.ucp = d.ucp)
    (hc : sinceOpen Call.copied d'.calls = sinceOpen Call.copied d.calls) : w.Sent L m j i d' := by
  unfold Sent
  rw [hu]
  rcases h with ⟨hi, ho, h⟩ | ⟨hi, ho, h⟩ | h
  · exact .inl ⟨hi, ho.congr hf hu hc, h⟩
  · exact .inr (.inl ⟨hi, ho.congr hf hu hc, h⟩)
  · exact .inr (.inr (h.congr hf hu hc))

theorem Open.progress (h : w.Open L m j d) : w.Progress d :=
  ⟨j, h.lt_count.le, h.copied, by rw [if_pos h.lt_count, h.state]⟩

theorem Ended.progress (h : w.Ended L m d) : w.Progress d :=
  ⟨w.count, le_refl _, h.copied, by rw [if_neg (lt_irrefl _), h.state]⟩

theorem Between.progress (h : w.Between L m j d) : w.Progress d := by
  rcases h.2 with ho | ⟨-, he, -⟩
  · exact ho.progress
  · exact he.progress

theorem Sent.progress (h : w.Sent L m j i d) : w.Progress d := by
  rcases h with ⟨-, ho, -⟩ | ⟨-, ho, -⟩ | h
  · exact ho.progress
  · exact ho.progress
  · exact h.progress

end WriteSession

/-- An event of a gap is a poll, a pass of `UCP_WriteTask`, or changes nothing here. -/
theorem gap_cases (L : Layout) (d : Device) {e : Event} (he : e.inGap = true) :
    (∃ rq, e = .setup rq ∧ rq.asksReport = true) ∨ e = .writeTask ∨
      ∃ d', step L d e = .ret d' ∧ Still d d' := by
  cases e with
  | setup rq =>
    by_cases h : rq.asksReport = true
    · exact .inl ⟨rq, rfl, h⟩
    · obtain ⟨u, l, hs, hl⟩ := setup_other L d h
      have hc (c : Call) (hc : c ∈ l) : c.isPrint = true := by rw [hl c hc]; rfl
      exact .inr (.inr ⟨_, rfl, by rw [hs]; exact ⟨⟨rfl, rfl, rfl, l, rfl, hc⟩, rfl, rfl, rfl⟩⟩)
  | writeTask => exact .inr (.inl rfl)
  | printUpdate => exact .inr (.inr ⟨_, rfl, (printStep_update L d).still⟩)
  | ledTask =>
    refine .inr (.inr ⟨_, rfl, ?_⟩)
    unfold ledTask
    dsimp only
    split_ifs <;> exact .same rfl rfl
  | background ram => exact .inr (.inr ⟨_, rfl, .same rfl rfl⟩)
  | _ => exact absurd he nofun

namespace WriteSession

theorem Open.task (h : w.Open L m j d) (ha : d.ucp.usbWriteAccepted = false) : ucpTask L d = d :=
  task_same L (.inl ⟨h.state, ha⟩)

theorem Between.task (h : w.Between L m j d) : ucpTask L d = d := by
  rcases h.2 with ho | ⟨-, he, -⟩
  · exact ho.task h.1.2
  · exact task_same L (.inr he.state)

/-- A poll passes an accepted packet on, and does nothing else here. -/
theorem Sent.poll {k : ℕ} {rq : UsbRequest} (h : w.Sent L m j i d) (hq : rq.asksReport = true)
    (hk : k ≤ max i 1) : (step L d (.setup rq)).Sat (w.Sent L m j k) (w.Spun L m) := by
  have hc (d : Device) (l : List UInt8) :
      sinceOpen Call.copied (d.call (.reply 2 l)).calls = sinceOpen Call.copied d.calls :=
    copied_same ⟨[.reply 2 l], rfl, by simp [Call.isTransfer]⟩
  rw [show step L d (.setup rq) = .ret _ from congrArg Outcome.ret (setup_report L hq)]
  rcases h with ⟨rfl, ho, hr, hw, ha⟩ | ⟨hi, ho, hr, hw, ha⟩ | h
  · rw [task_promote L ho.state ha]
    refine .inr (.inl ⟨by simpa using hk, ?_, hr, rfl, rfl⟩)
    exact ⟨ho.transfer.of_eq rfl rfl rfl rfl rfl rfl, ho.lt, ho.state, (hc _ _).trans ho.copied⟩
  · rw [ho.task ha]
    exact .inr (.inl ⟨by omega, ho.congr rfl rfl (hc d _), hr, hw, ha⟩)
  · rw [h.task]
    exact .inr (.inr (h.congr rfl rfl (hc d _)))

/-- `UCP_WriteTask` consumes the packet; with the last one it closes the transfer. -/
theorem Open.writeTask (h : w.Open L m j d) (hr : d.ucp.customReport = w.packets j)
    (hw : d.ucp.usbWrite = true) (ha : d.ucp.usbWriteAccepted = false) :
    (ucpWriteTask L d).Sat (w.Between L m (j + 1)) (w.Spun L m) := by
  have hcalls := writeTask_calls L hw
  have hflags (d' : Device) (hs : ucpWriteTask L d = .ret d') := writeTask_flags hw hs
  have hcopied (d' : Device) (hc : d'.calls = d.calls ++ [.copy d.ucp.ucpState d.ucp.customReport]) :
      sinceOpen Call.copied d'.calls = (List.range (j + 1)).map w.packets := by
    rw [hc, sinceOpen_snoc, if_neg nofun, h.copied, hr, List.range_succ, List.map_append]
    rfl
  have hp (k : Fin 8) : d.ucp.customReport k = w.payload (8 * j + k) := by
    rw [hr, w.payload_packet]
  rcases h.transfer.writeTask h.lt hw hp with ⟨hlt, d', hs, ht, hst⟩ | ⟨hle, d', hs, hm⟩
  · rw [hs] at hcalls ⊢
    obtain ⟨h1, h2⟩ := hflags d' hs
    exact ⟨⟨h1, h2.trans ha⟩, .inl ⟨ht, hlt, hst.trans h.state, hcopied d' hcalls⟩⟩
  · -- the transfer is over: `CRD_Init` decides whether the call returns
    have hcount : j + 1 = w.count := by
      have h1 := count_spec (w := w)
      have h2 := h.lt
      omega
    have hret := crdInit_returns L (d'.setUcp { d'.ucp with ucpState := .idle })
    obtain ⟨c, hc⟩ := loadCredential_state L 0 (d'.setUcp { d'.ucp with ucpState := .idle })
    change (crdInit L (d'.setUcp { d'.ucp with ucpState := .idle })).state = _ at hc
    rw [setUcp_flash] at hret
    cases ho : crdInit L (d'.setUcp { d'.ucp with ucpState := .idle }) with
    | ret d1 =>
      rw [ho] at hs hret hc
      rw [Outcome.state_ret] at hc
      subst hc
      rw [hs] at hcalls ⊢
      obtain ⟨h1, h2⟩ := hflags _ hs
      refine ⟨⟨h1, h2.trans ha⟩, .inr ⟨⟨by omega, by omega⟩, ⟨hm, rfl, ?_⟩, hret.mp rfl⟩⟩
      rw [← hcount]
      exact hcopied _ hcalls
    | spin d1 =>
      rw [ho] at hs hret hc
      rw [Outcome.state_spin] at hc
      subst hc
      rw [hs] at hcalls ⊢
      refine ⟨⟨hm, rfl, ?_⟩, fun a h0 => absurd (hret.mpr ⟨a, h0⟩) nofun⟩
      rw [← hcount]
      exact hcopied _ hcalls

theorem Sent.write {k : ℕ} (h : w.Sent L m j i d) (hk : k = i ∨ 1 ≤ i) :
    (step L d .writeTask).Sat (w.Sent L m j k) (w.Spun L m) := by
  change (ucpWriteTask L d).Sat _ _
  rcases h with ⟨rfl, ho, hr, hw, ha⟩ | ⟨hi, ho, hr, hw, ha⟩ | h
  · rw [writeTask_none L d hw]
    exact .inl ⟨by omega, ho, hr, hw, ha⟩
  · exact (ho.writeTask hr hw ha).mono fun s hs => .inr (.inr hs)
  · rw [writeTask_none L d h.1.1]
    exact .inr (.inr h)

theorem Sent.gap {e : Event} (h : w.Sent L m j i d) (he : e.inGap = true) :
    (step L d e).Sat (w.Sent L m j i) (w.Spun L m) := by
  rcases gap_cases L d he with ⟨rq, rfl, hq⟩ | rfl | ⟨d', hs, hd⟩
  · exact h.poll hq (le_max_left i 1)
  · exact h.write (.inl rfl)
  · rw [hs]
    exact h.congr hd.calm.flash hd.ucp (copied_same (.of_calm hd.calm))

theorem Between.gap {e : Event} (h : w.Between L m j d) (he : e.inGap = true) :
    (step L d e).Sat (w.Between L m j) (w.Spun L m) := by
  rcases gap_cases L d he with ⟨rq, rfl, hq⟩ | rfl | ⟨d', hs, hd⟩
  · rw [show step L d (.setup rq) = .ret _ from congrArg Outcome.ret (setup_report L hq), h.task]
    exact h.congr rfl rfl (copied_same ⟨[.reply 2 _], rfl, by simp [Call.isTransfer]⟩)
  · rw [show step L d .writeTask = .ret d from writeTask_none L d h.1.1]
    exact h
  · rw [hs]
    exact h.congr hd.calm.flash hd.ucp (copied_same (.of_calm hd.calm))

/-- The next packet is accepted. -/
theorem Between.accept (h : w.Between L m j d) (hj : j < w.count) :
    ∃ d', step L d (.write (w.packets j) 8) = .ret d' ∧ w.Sent L m j 0 d' := by
  have hcount := count_spec (w := w)
  rcases h.2 with ho | ⟨⟨hn, -⟩, -⟩
  · refine ⟨_, congrArg Outcome.ret (decode_accept L ho.state h.1.1
      (ho.transfer.readOffset_lt.mpr ho.lt)), .inl ⟨rfl, ?_, rfl, h.1.1, rfl⟩⟩
    refine ⟨ho.transfer.of_eq rfl rfl rfl rfl rfl rfl, ho.lt, ho.state, ?_⟩
    rw [call_calls, setUcp_calls, sinceOpen_snoc, if_neg nofun, ho.copied]
    exact List.append_nil _
  · omega

/-- The WRITE command opens the transfer. -/
theorem opens (h0 : d.ucp.ucpState = .idle) (hw : d.ucp.usbWrite = false)
    (ha : d.ucp.usbWriteAccepted = false) :
    ∃ d', step L d (.write w.cmd 8) = .ret d' ∧ w.Between L d.flash.mem 0 d' := by
  refine ⟨_, congrArg Outcome.ret (decode_openWrite L h0 w.isWrite), ⟨hw, ha⟩, .inl ?_⟩
  have hsum : (word w.cmd 1 2 + word w.cmd 3 4).toNat = w.offset + w.size := by
    have hfit := w.fit
    unfold maxCredFlashSize at hfit
    rw [UInt16.toNat_add]
    exact Nat.mod_eq_of_lt (by omega)
  refine ⟨Transfer.opened w.fit rfl hsum rfl rfl rfl rfl, w.pos, rfl, ?_⟩
  rw [call_calls, sinceOpen_snoc, if_pos rfl]
  rfl

/-- One packet and what comes after it. -/
theorem Between.packet (h : w.Between L m j d) (hj : j < w.count) :
    Always (step L) w.Progress (.ret d) (.write (w.packets j) 8 :: w.after j) ∧
      (run (step L) (.ret d) (.write (w.packets j) 8 :: w.after j)).Sat (w.Between L m (j + 1))
        (w.Spun L m) := by
  obtain ⟨d', hs, hd⟩ := h.accept hj
  have hkeep (i : ℕ) (s : Device) (e : Event) (h : w.Sent L m j i s) (he : e.inGap = true) :
      (step L s e).Sat (w.Sent L m j i) (w.Spun L m) := h.gap he
  have hnext (i : ℕ) (hi : i < 2) (s : Device) (h : w.Sent L m j (0 + i) s) :
      (step L s [Event.getReport 2, .writeTask][i]).Sat (w.Sent L m j (0 + i + 1)) (w.Spun L m) := by
    rcases i with _ | _ | i
    · exact h.poll rfl (by simp)
    · exact h.write (.inr (by simp))
    · omega
  rw [always_ret_cons, run_cons, Outcome.bind_ret, hs]
  refine ⟨⟨h.progress, hd.progress, ?_⟩, ?_⟩
  · exact always_of_sat (fun s h => h.progress) (fun s h => h.1.progress) (hkeep 0)
      (o := .ret d') hd (w.after_gap j)
  · refine (sat_sublist hkeep (w.after_handover j) (w.after_gap j) hnext (o := .ret d') hd).mono ?_
    intro s hs
    rcases hs with ⟨hi, -⟩ | ⟨hi, -⟩ | hs
    · exact absurd hi (by decide)
    · exact absurd hi (by decide)
    · exact hs

theorem sends_spec {o : Outcome Device} (ho : o.Sat (w.Between L m 0) (w.Spun L m)) {n : ℕ}
    (hn : n ≤ w.count) : Always (step L) w.Progress o (w.sends n) ∧
      (run (step L) o (w.sends n)).Sat (w.Between L m n) (w.Spun L m) := by
  induction n with
  | zero =>
    refine ⟨?_, ho⟩
    cases o with
    | ret s => exact ho.progress
    | spin s => trivial
  | succ n ih =>
    obtain ⟨h1, h2⟩ := ih (by omega)
    rw [sends, always_append, run_append]
    cases hr : run (step L) o (w.sends n) with
    | spin s =>
      rw [hr] at h2
      rw [run_spin]
      exact ⟨⟨h1, always_spin _ _ _⟩, h2⟩
    | ret s =>
      rw [hr] at h2
      obtain ⟨h3, h4⟩ := Between.packet h2 (by omega)
      exact ⟨⟨h1, h3⟩, h4⟩

/-- After the WRITE command every state shows the progress, and the session ends in `Ended`. -/
theorem session_spec (w : WriteSession) (L : Layout) {d : Device} (h0 : d.ucp.ucpState = .idle)
    (hw : d.ucp.usbWrite = false) (ha : d.ucp.usbWriteAccepted = false) :
    Always (step L) w.Progress (step L d (.write w.cmd 8)) w.data ∧
      (run (step L) (.ret d) w.events).Sat (w.Between L d.flash.mem w.count)
        (w.Spun L d.flash.mem) := by
  obtain ⟨d', hs, hd⟩ := opens (w := w) (L := L) h0 hw ha
  have hgap (s : Device) (e : Event) (h : w.Between L d.flash.mem 0 s) (he : e.inGap = true) :
      (step L s e).Sat (w.Between L d.flash.mem 0) (w.Spun L d.flash.mem) := h.gap he
  have h1 := sat_run hgap (o := .ret d') hd w.first_gap
  have h2 := always_of_sat (fun s h => h.progress) (fun s h => h.1.progress) hgap (o := .ret d') hd
    w.first_gap
  obtain ⟨h3, h4⟩ := sends_spec h1 (le_refl w.count)
  unfold events data
  rw [run_cons, Outcome.bind_ret, hs, always_append, run_append]
  exact ⟨⟨h2, h3⟩, h4⟩

/-- A session that leaves no NUL anywhere never comes to an end. -/
theorem spins (w : WriteSession) (L : Layout) {d : Device} (h0 : d.ucp.ucpState = .idle)
    (hw : d.ucp.usbWrite = false) (ha : d.ucp.usbWriteAccepted = false)
    (hm : ∀ a, d.flash.mem a ≠ 0) (hp : ∀ i < w.size, w.payload i ≠ 0) :
    ∃ s, run (step L) (.ret d) w.events = .spin s := by
  have hend := (session_spec w L h0 hw ha).2
  cases ho : run (step L) (.ret d) w.events with
  | spin s => exact ⟨s, rfl⟩
  | ret s =>
    rw [ho] at hend
    rcases hend.2 with hopen | ⟨-, hended, a, hzero⟩
    · have hlt := hopen.lt_count
      omega
    · rw [hended.mem] at hzero
      unfold Mem.write at hzero
      split_ifs at hzero with hin
      · exact absurd hzero (hp _ hin)
      · exact absurd hzero (hm a)

end WriteSession

def Event.polls : Event → Bool
  | .setup rq => rq.asksReport
  | _ => false

/-- A READ of the range of the session from flash, with one poll more than it has packets. -/
structure ReadBack (w : WriteSession) where
  cmd : Bytes 8
  after : List Event
  isRead : cmd 0 = ucpCmdRead
  offset : word cmd 1 2 = word w.cmd 1 2
  size : word cmd 3 4 = word w.cmd 3 4
  type : cmd 5 = 0
  after_gap : ∀ e ∈ after, e.inGap = true
  after_polls : after.countP Event.polls = w.count + 1

namespace ReadBack

def events (r : ReadBack w) : List Event := .write r.cmd 8 :: r.after

/-- The `j`-th report: the echo of the command, then the range eight bytes at a time. -/
def report (r : ReadBack w) (L : Layout) (m : Mem) : ℕ → Bytes 8
  | 0 => r.cmd
  | j + 1 => m.read (L.credentials + UInt16.ofNat (w.offset + 8 * j)) 8

structure Reading (r : ReadBack w) (L : Layout) (m : Mem) (l : List Call) (j : ℕ) (d : Device) :
    Prop where
  mem : d.flash.mem = m
  usbWrite : d.ucp.usbWrite = false
  replies : d.replies = l ++ (List.range j).map fun k => .reply 2 (List.ofFn (r.report L m k))
  readEnd : d.ucp.readEnd.toNat = w.offset + w.size
  readType : d.ucp.readType = 0
  state : (j = 0 ∧ d.ucp.ucpState = .readingCmd ∧ d.ucp.customReport = r.cmd ∧
      d.ucp.readOffset.toNat = w.offset) ∨
    (∃ k, j = k + 1 ∧ 8 * k < w.size ∧ d.ucp.ucpState = .reading ∧
      d.ucp.readOffset.toNat = w.offset + 8 * k) ∨
    (1 ≤ j ∧ w.size ≤ 8 * (j - 1) ∧ d.ucp.ucpState = .idle)

variable {r : ReadBack w} {l : List Call}

theorem Reading.congr (h : r.Reading L m l j d) (hf : d'.flash.mem = d.flash.mem)
    (hu : d'.ucp = d.ucp) (hr : d'.replies = d.replies) : r.Reading L m l j d' where
  mem := by rw [hf, h.mem]
  usbWrite := by rw [hu, h.usbWrite]
  replies := by rw [hr, h.replies]
  readEnd := by rw [hu, h.readEnd]
  readType := by rw [hu, h.readType]
  state := by rw [hu]; exact h.state

theorem snoc_report (r : ReadBack w) (L : Layout) (m : Mem) (l : List Call) (j : ℕ) :
    l ++ (List.range j).map (fun k => Call.reply 2 (List.ofFn (r.report L m k))) ++
        [.reply 2 (List.ofFn (r.report L m j))] =
      l ++ (List.range (j + 1)).map fun k => .reply 2 (List.ofFn (r.report L m k)) := by
  rw [List.range_succ, List.map_append, List.append_assoc]
  rfl

/-- Each poll reads the next report. -/
theorem Reading.poll (h : r.Reading L m l j d) (hj : j ≤ w.count) : r.Reading L m l (j + 1)
    ((ucpTask L d).call (.reply 2 (List.ofFn (ucpTask L d).ucp.customReport))) := by
  have hfit : w.offset + w.size ≤ 2048 := w.fit
  have hcount := WriteSession.count_spec (w := w)
  rcases h.state with ⟨rfl, h0, hc, ho⟩ | ⟨k, rfl, hk, h0, ho⟩ | ⟨h1, hn, -⟩
  · have ht : ucpTask L d = d.setUcp { d.ucp with ucpState := .reading } := by simp [ucpTask, h0]
    have hpos := w.pos
    rw [ht]
    refine ⟨h.mem, h.usbWrite, ?_, h.readEnd, h.readType, .inr (.inl ⟨0, rfl, hpos, rfl, ho⟩)⟩
    rw [replies_reply, ← snoc_report, ← h.replies, setUcp_ucp, hc]
    rfl
  · have hlt : d.ucp.readOffset < d.ucp.readEnd := by
      rw [UInt16.lt_iff_toNat_lt, ho, h.readEnd]
      omega
    have hread : readReport L d = r.report L m (k + 1) := by
      unfold readReport
      rw [if_pos h.readType, h.mem, ← UInt16.ofNat_toNat (x := d.ucp.readOffset), ho]
      rfl
    have hnext : (d.ucp.readOffset + 8).toNat = w.offset + 8 * (k + 1) := by
      rw [UInt16.toNat_add, ho, show (8 : UInt16).toNat = 8 from rfl]
      omega
    have ht : ucpTask L d = d.setUcp { d.ucp with
        ucpState := if d.ucp.readEnd ≤ d.ucp.readOffset + 8 then .idle else .reading,
        customReport := r.report L m (k + 1), readOffset := d.ucp.readOffset + 8 } := by
      simp only [ucpTask, h0, hlt, if_true, hread]
      split_ifs <;> rfl
    rw [ht]
    refine ⟨h.mem, h.usbWrite, ?_, h.readEnd, h.readType, ?_⟩
    · rw [replies_reply, ← snoc_report, ← h.replies]
      rfl
    · by_cases he : d.ucp.readEnd ≤ d.ucp.readOffset + 8
      · refine .inr (.inr ⟨by omega, ?_, if_pos he⟩)
        rw [UInt16.le_iff_toNat_le, h.readEnd, hnext] at he
        omega
      · refine .inr (.inl ⟨k + 1, rfl, ?_, if_neg he, hnext⟩)
        rw [UInt16.le_iff_toNat_le, h.readEnd, hnext] at he
        omega
  · omega

/-- Every other event of a gap leaves the transfer where it is. -/
theorem Reading.gap {e : Event} (h : r.Reading L m l j d) (he : e.inGap = true)
    (hp : e.polls = false) : ∃ d', step L d e = .ret d' ∧ r.Reading L m l j d' := by
  rcases gap_cases L d he with ⟨rq, rfl, hq⟩ | rfl | ⟨d', hs, hd⟩
  · exact absurd (hq.symm.trans hp) nofun
  · exact ⟨d, writeTask_none L d h.usbWrite, h⟩
  · exact ⟨d', hs, h.congr (by rw [hd.calm.flash]) hd.ucp (replies_calm hd.calm)⟩

theorem Reading.run {evs : List Event} (h : r.Reading L m l j d) (hg : ∀ e ∈ evs, e.inGap = true)
    (hj : j + evs.countP Event.polls ≤ w.count + 1) : ∃ d', run (step L) (.ret d) evs = .ret d' ∧
      r.Reading L m l (j + evs.countP Event.polls) d' := by
  induction evs generalizing d j with
  | nil => exact ⟨d, rfl, h⟩
  | cons e evs ih =>
    have he := hg e List.mem_cons_self
    have hg' (e' : Event) (he' : e' ∈ evs) := hg e' (List.mem_cons_of_mem e he')
    rw [run_cons, Outcome.bind_ret]
    cases hp : e.polls with
    | false =>
      obtain ⟨d1, hs, h1⟩ := h.gap he hp
      rw [List.countP_cons_of_neg (by simp [hp])] at hj ⊢
      rw [hs]
      exact ih h1 hg' hj
    | true =>
      rw [List.countP_cons_of_pos hp, Nat.add_comm (List.countP _ _), ← Nat.add_assoc] at hj ⊢
      cases e with
      | setup rq =>
        have hs : step L d (.setup rq) = .ret _ := congrArg Outcome.ret (setup_report L hp)
        rw [hs]
        exact ih (h.poll (by omega)) hg' hj
      | _ => exact absurd hp nofun

/-- The READ of an idle device shows the echo and then the range. -/
theorem read_spec (r : ReadBack w) (L : Layout) {d : Device} (h0 : d.ucp.ucpState = .idle)
    (hw : d.ucp.usbWrite = false) : ∃ d', run (step L) (.ret d) r.events = .ret d' ∧
      d'.ucp.ucpState = .idle ∧ d'.replies = d.replies ++ (List.range (w.count + 1)).map fun k =>
        .reply 2 (List.ofFn (r.report L d.flash.mem k)) := by
  have hs : step L d (.write r.cmd 8) = .ret _ := congrArg Outcome.ret (decode_openRead L h0 r.isRead)
  have hsum : (word r.cmd 1 2 + word r.cmd 3 4).toNat = w.offset + w.size := by
    have hfit := w.fit
    unfold maxCredFlashSize at hfit
    rw [r.offset, r.size, UInt16.toNat_add]
    exact Nat.mod_eq_of_lt (by omega)
  have hoff : (word r.cmd 1 2).toNat = w.offset := by
    rw [r.offset]
    rfl
  have hstart : r.Reading L d.flash.mem d.replies 0 (d.setUcp { d.ucp.received r.cmd with
      ucpState := .readingCmd, readOffset := word r.cmd 1 2,
      readEnd := word r.cmd 1 2 + word r.cmd 3 4, readType := r.cmd 5 }) :=
    ⟨rfl, hw, by simp [Device.replies], hsum, r.type, .inl ⟨rfl, rfl, rfl, hoff⟩⟩
  have hpolls := r.after_polls
  obtain ⟨d', hr, h⟩ := hstart.run r.after_gap (by omega)
  rw [Nat.zero_add, hpolls] at h
  refine ⟨d', ?_, ?_, h.replies⟩
  · unfold events
    rw [run_cons, Outcome.bind_ret, hs, hr]
  · have hcount := WriteSession.count_spec (w := w)
    rcases h.state with ⟨hj, -⟩ | ⟨k, hk, hlt, -⟩ | ⟨-, -, h⟩
    · omega
    · omega
    · exact h

end ReadBack

end

/-- A WRITE of a range of the store puts exactly the payload there, packet by packet, and is
over with the last of them. The device then answers, with the echo of a READ and the payload,
as long as there is a NUL somewhere in flash. -/
theorem writeRead_roundTrip (L : Layout) (w : WriteSession) (r : ReadBack w) (d : Device)
    (h0 : d.ucp.ucpState = .idle) (hw : d.ucp.usbWrite = false)
    (ha : d.ucp.usbWriteAccepted = false) :
    let o := run (step L) (.ret d) w.events
    Always (step L) w.Progress (step L d (.write w.cmd 8)) w.data ∧
    o.state.ucp.ucpState = .idle ∧
    (∀ i < w.size, o.state.flash.mem (L.credentials + UInt16.ofNat (w.offset + i)) = w.payload i) ∧
    (∀ a, (∀ i < w.size, a ≠ L.credentials + UInt16.ofNat (w.offset + i)) →
      o.state.flash.mem a = d.flash.mem a) ∧
    (o.returns = true ↔ ∃ a, o.state.flash.mem a = 0) ∧
    (o.returns = true → ∃ d', run (step L) o r.events = .ret d' ∧ d'.ucp.ucpState = .idle ∧
      ∃ blocks : ℕ → Bytes 8,
        (∀ j, ∀ i : Fin 8, 8 * j + i < w.size → blocks j i = w.packets j i) ∧
        d'.replies = o.state.replies ++ .reply 2 (List.ofFn r.cmd) ::
          (List.range w.count).map fun j => .reply 2 (List.ofFn (blocks j))) := by
  intro o
  obtain ⟨hprogress, hend⟩ := WriteSession.session_spec w L h0 hw ha
  have hcount := WriteSession.count_spec (w := w)
  have hfit : w.offset + w.size ≤ 2048 := w.fit
  have hclosed (s : Device) (h : w.Between L d.flash.mem w.count s) :
      w.Ended L d.flash.mem s ∧ ∃ a, s.flash.mem a = 0 := by
    rcases h.2 with ho | ⟨-, h⟩
    · have hlt := ho.lt
      omega
    · exact h
  have hended : w.Ended L d.flash.mem o.state :=
    hend.state (fun s hs => (hclosed s hs).1) fun s hs => hs.1
  have hin (i : ℕ) (hi : i < w.size) :
      o.state.flash.mem (L.credentials + UInt16.ofNat (w.offset + i)) = w.payload i := by
    rw [hended.mem, UInt16.ofNat_add, ← UInt16.add_assoc]
    exact Mem.write_at _ _ _ hi (by omega)
  refine ⟨hprogress, hended.state, hin, fun a hout => ?_, ?_, fun hret => ?_⟩
  · rw [hended.mem]
    refine Mem.write_out (not_lt.mp fun hlt => hout _ hlt ?_)
    rw [UInt16.ofNat_add, ← UInt16.add_assoc, UInt16.ofNat_toNat, UInt16.add_comm,
      UInt16.sub_add_cancel]
  · cases ho : o with
    | ret s => exact iff_of_true rfl (hclosed s (by simpa [o, ho] using hend)).2
    | spin s =>
      have hs : w.Spun L d.flash.mem s := by simpa [o, ho] using hend
      exact iff_of_false nofun fun ⟨a, h⟩ => hs.2 a h
  · have ho := Outcome.eq_ret_of_returns hret
    have hb : w.Between L d.flash.mem w.count o.state := by
      rw [show run (step L) (.ret d) w.events = o from rfl, ho] at hend
      exact hend
    obtain ⟨d', hrun, hst, hreplies⟩ := r.read_spec L hended.state hb.1.1
    refine ⟨d', by rw [ho]; exact hrun, hst, fun j => r.report L o.state.flash.mem (j + 1),
      fun j i hi => ?_, ?_⟩
    · have hblock : r.report L o.state.flash.mem (j + 1) i =
          o.state.flash.mem (L.credentials + UInt16.ofNat (w.offset + (8 * j + i))) := by
        rw [← Nat.add_assoc, UInt16.ofNat_add (w.offset + 8 * j), ← UInt16.add_assoc]
        rfl
      exact hblock.trans ((hin _ hi).trans (w.payload_packet j i))
    · rw [hreplies, List.range_succ_eq_map, List.map_cons, List.map_map]
      rfl

/-- Twelve bytes to offset 60, over a boundary of 64 in the store. -/
def sampleSession : WriteSession where
  cmd := ![3, 60, 0, 12, 0, 0, 0, 0]
  packets := fun j => if j = 0 then ![1, 2, 3, 4, 5, 6, 7, 8] else ![9, 10, 11, 12, 0, 0, 0, 0]
  first := [.getReport 2, .printUpdate]
  after := fun _ => [.writeTask, .getReport 2, .ledTask, .writeTask, .getReport 2]
  isWrite := rfl
  pos := by decide
  fit := by decide
  first_gap := by decide
  after_gap := by simp [Event.inGap, Event.getReport]
  after_handover := fun _ => .cons _ (.cons_cons _ (.cons _ (.cons_cons _ (.cons _ .slnil))))

def sampleReadBack : ReadBack sampleSession where
  cmd := ![2, 60, 0, 12, 0, 0, 0, 0]
  after := [.getReport 2, .writeTask, .getReport 2, .getReport 2]
  isRead := rfl
  offset := rfl
  size := rfl
  type := rfl
  after_gap := by simp [Event.inGap, Event.getReport]
  after_polls := by decide

theorem writeRead_sampleSession : ∃ d', run (step sampleLayout)
    (run (step sampleLayout) (.ret (idleDevice fun _ => 0)) sampleSession.events)
      sampleReadBack.events = .ret d' ∧ d'.ucp.ucpState = .idle := by
  obtain ⟨-, -, -, -, h1, h2⟩ := writeRead_roundTrip sampleLayout sampleSession sampleReadBack
    (idleDevice fun _ => 0) rfl rfl rfl
  obtain ⟨d', hr, hst, -⟩ := h2 (by decide +kernel)
  exact ⟨d', hr, hst⟩

/-- When no byte of flash is a NUL after the write, the READ is never answered. -/
theorem not_writeRead_noNul : ¬∀ L (w : WriteSession) (r : ReadBack w) (d : Device),
    d.ucp.ucpState = .idle → d.ucp.usbWrite = false → d.ucp.usbWriteAccepted = false →
    ∃ d', run (step L) (.ret d) (w.events ++ r.events) = .ret d' ∧
      .reply 2 (List.ofFn r.cmd) ∈ d'.replies := by
  intro h
  obtain ⟨d', hr, -⟩ := h sampleLayout sampleSession sampleReadBack (idleDevice fun _ => 1) rfl rfl rfl
  obtain ⟨s, hs⟩ := sampleSession.spins sampleLayout (d := idleDevice fun _ => 1) rfl rfl rfl
    (fun _ => (by decide : (1 : UInt8) ≠ 0)) (by decide)
  rw [run_append, hs, run_spin] at hr
  exact absurd hr nofun

end Memtype
