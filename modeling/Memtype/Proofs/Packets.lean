import Memtype.Lib.Chunks
import Memtype.Proofs.Bus
import Memtype.Proofs.UsbCrc

/-! Messages in packets: what `usbCrc16Append` leaves in a buffer is a framed packet, and from the
packets of a message the host gets the message back. -/

namespace Memtype

open Lib

namespace Usbdrv

def toggle (pid : UInt8) : UInt8 := pid ^^^ (usbpidData0 ^^^ usbpidData1)

/-- A data packet: the PID, the data and their CRC, low byte first. -/
def framed (pid : UInt8) (l : List UInt8) : List UInt8 :=
  pid :: (l ++ [⟨(UsbAsm.crc16 l).extractLsb' 0 8⟩, ⟨(UsbAsm.crc16 l).extractLsb' 8 8⟩])

def packets (pid : UInt8) (l : List UInt8) : List (List UInt8) :=
  marked toggle framed pid (chunks 8 l)

theorem packets_short {l : List UInt8} (pid : UInt8) (h : l.length < 8) :
    packets pid l = [framed pid l] := by
  unfold packets
  rw [chunks_short h]
  rfl

theorem packets_long {l : List UInt8} (pid : UInt8) (h : 8 ≤ l.length) :
    packets pid l = framed pid (l.take 8) :: packets (toggle pid) (l.drop 8) := by
  unfold packets
  rw [chunks_long (by decide) h]
  rfl

def payload (p : List UInt8) : List UInt8 := p.tail.take (p.length - 3)

theorem payload_framed (pid : UInt8) (l : List UInt8) : payload (framed pid l) = l := by
  unfold payload framed
  rw [List.tail_cons]
  exact List.take_left' (by simp)

theorem accepted_framed (pid : UInt8) (l : List UInt8) :
    UsbAsm.Accepted (UsbAsm.wire (framed pid l).tail) := by
  refine UsbAsm.accepted_crc ?_
  refine BitVec.eq_of_getLsbD_eq fun i hi => ?_
  rw [BitVec.getLsbD_append]
  split_ifs with h8
  · simp [h8]
  · rw [BitVec.getLsbD_extractLsb', decide_eq_true (by omega), Bool.true_and]
    exact congrArg _ (by omega)

/-- What the host makes of data packets: each is whole, their PIDs alternate, and without them they
are the message, which ends at the first short one. -/
structure Delivers (ps : List (List UInt8)) (msg : List UInt8) : Prop where
  crc : ∀ p ∈ ps, UsbAsm.Accepted (UsbAsm.wire p.tail)
  pids : ps.map List.head? = (List.range ps.length).map fun i => some (toggle^[i] usbpidData1)
  message : ps.flatMap payload = msg
  full : ∀ p ∈ ps.dropLast, (payload p).length = 8
  last : ∀ p, ps.getLast? = some p → (payload p).length < 8

theorem delivers_nil : Delivers [] [] := ⟨nofun, rfl, rfl, nofun, nofun⟩

theorem delivers_packets (l : List UInt8) : Delivers (packets usbpidData1 l) l := by
  have hmap : (packets usbpidData1 l).map payload = chunks 8 l := map_marked payload_framed _ _
  refine ⟨fun p hp => forall_marked (p := fun p => UsbAsm.Accepted (UsbAsm.wire p.tail))
    accepted_framed hp, ?_, ?_, fun p hp => ?_, fun p hp => ?_⟩
  · have hlen : (packets usbpidData1 l).length = (chunks 8 l).length := by
      rw [← hmap, List.length_map]
    rw [hlen]
    exact map_mark (g := List.head?) (m := some) (f := framed) (fun _ _ => rfl) _ _
  · rw [List.flatMap_def, hmap, flatten_chunks (by decide)]
  · refine length_of_mem_dropLast_chunks (l := l) ?_
    rw [← hmap, ← List.map_dropLast]
    exact List.mem_map_of_mem hp
  · refine length_of_getLast_chunks (by decide) (l := l) ?_
    rw [← hmap, List.getLast?_map, hp]
    rfl

theorem append_apply (b : Bytes 11) {l : List UInt8} {k : Fin 11} (hk : k.val < l.length + 3) :
    append b l k = (framed (b 0) l).getD k 0 := by
  unfold append framed
  rcases Nat.lt_or_ge k.val (1 + l.length) with hlow | hhigh
  · rw [putBytes_out _ _ (.inl hlow)]
    rcases Nat.eq_zero_or_pos k.val with h0 | hpos
    · have hk0 : k = 0 := Fin.ext h0
      rw [putBytes_out _ _ (.inl (h0 ▸ Nat.one_pos)), hk0]
      rfl
    · rw [putBytes_in _ _ ⟨hpos, hlow⟩]
      obtain ⟨j, hj⟩ := Nat.exists_eq_add_of_le' hpos
      rw [hj, List.getD_cons_succ, List.getD_append _ _ _ _ (by omega)]
      rfl
  · rw [putBytes_in _ _ ⟨hhigh, by simp; omega⟩]
    obtain ⟨j, hj⟩ := Nat.exists_eq_add_of_le hhigh
    have hj' : k.val = l.length + j + 1 := by omega
    rw [hj', List.getD_cons_succ, List.getD_append_right _ _ _ _ (Nat.le_add_right _ _),
      Nat.add_sub_cancel_left, show l.length + j + 1 - (1 + l.length) = j by omega]

/-- What `usbCrc16Append` leaves in a buffer is the packet. -/
theorem take_append (b : Bytes 11) {l : List UInt8} (h : l.length ≤ 8) :
    (List.ofFn (append b l)).take (l.length + 3) = framed (b 0) l := by
  have hlen : (framed (b 0) l).length = l.length + 3 := by simp [framed]
  refine List.ext_getElem (by simp [hlen]; omega) fun k hk hk' => ?_
  rw [List.getElem_take, List.getElem_ofFn, append_apply b (hk'.trans_eq hlen), List.getD_eq_getElem _ _ hk']

end Usbdrv

end Memtype
