import Memtype.Proofs.CipherAsm
import Memtype.Proofs.Frames

/-! The routines of noekeon.S undo one another on the data memory, and `CRD_apply` reads back
what was encrypted, block after block. -/

namespace Memtype

open Lib

theorem putPlain_out {m : Mem} {a x : UInt16} (b : Bytes 16) (h : 16 ≤ (x - a).toNat) :
    putPlain m a b x = m x := Mem.write_out h

theorem putPlain_putPlain (m : Mem) (a : UInt16) (b b' : Bytes 16) :
    putPlain (putPlain m a b) a b' = putPlain m a b' := Mem.write_write ..

theorem cipherAt_putPlain (m : Mem) (a : UInt16) (b : Bytes 16) :
    cipherAt (putPlain m a b) a = ⟨b, (cipherAt m a).key⟩ := by
  unfold cipherAt putPlain
  congr 1
  · rw [Mem.read_write_self m a _ (by decide)]
    funext i
    exact congrArg b (Fin.ext (Nat.mod_eq_of_lt i.isLt))
  · refine Mem.read_write_out m a (a + 16) _ fun i hi => ?_
    rw [show a + 16 + UInt16.ofNat i = a + UInt16.ofNat (16 + i) by
      rw [UInt16.ofNat_add, ← UInt16.add_assoc]; rfl, Mem.toNat_add_ofNat_sub a (by omega)]
    exact Nat.le_add_right 16 i

theorem putPlain_plain (m : Mem) (a : UInt16) : putPlain m a (cipherAt m a).plain = m := by
  refine (Mem.write_congr m a fun i hi => ?_).trans (write_same m a 16)
  show m (a + UInt16.ofNat (i % 16)) = m (a + UInt16.ofNat i)
  rw [Nat.mod_eq_of_lt hi]

/-- A routine leaves one data memory behind. -/
theorem Transforms.unique {routine : Asm.Core → Outcome Asm.Core} {m m1 m2 : Mem}
    (h1 : Transforms routine m m1) (h2 : Transforms routine m m2) : m1 = m2 := by
  obtain ⟨c1, hr1, hm1⟩ := h1 ⟨fun _ => 0, 0, false, false, m⟩ rfl
  obtain ⟨c2, hr2, hm2⟩ := h2 ⟨fun _ => 0, 0, false, false, m⟩ rfl
  rw [hr1] at hr2
  cases hr2
  exact hm1.symm.trans hm2

/-- The first routine leaves all but `cipher.plain` as it was, and the second undoes it. -/
def UndoneBy (cipher : UInt16) (first second : Asm.Core → Outcome Asm.Core) : Prop :=
  ∀ m, ∃ m', Transforms first m m' ∧ Transforms second m' m ∧
    ∀ a, 16 ≤ (a - cipher).toNat → m' a = m a

theorem encrypt_undoneBy_decrypt (w : Window 32) :
    UndoneBy w.start (Asm.noekeonEncrypt w.start) (Asm.noekeonDecrypt w.start) := by
  intro m
  refine ⟨_, noekeonEncrypt_transforms w m, ?_, fun a ha => putPlain_out _ ha⟩
  have h := noekeonDecrypt_transforms w
    (putPlain m w.start (noekeonEncrypt (cipherAt m w.start)).plain)
  rw [cipherAt_putPlain, putPlain_putPlain] at h
  have hback := noekeonDecrypt_noekeonEncrypt (cipherAt m w.start)
  rw [show noekeonDecrypt
    ⟨(noekeonEncrypt (cipherAt m w.start)).plain, (cipherAt m w.start).key⟩ = cipherAt m w.start from hback,
    putPlain_plain] at h
  exact h

theorem decrypt_undoneBy_encrypt (w : Window 32) :
    UndoneBy w.start (Asm.noekeonDecrypt w.start) (Asm.noekeonEncrypt w.start) := by
  intro m
  refine ⟨_, noekeonDecrypt_transforms w m, ?_, fun a ha => putPlain_out _ ha⟩
  have h := noekeonEncrypt_transforms w
    (putPlain m w.start (noekeonDecrypt (cipherAt m w.start)).plain)
  rw [cipherAt_putPlain, putPlain_putPlain] at h
  have hback := noekeonEncrypt_noekeonDecrypt (cipherAt m w.start)
  rw [show noekeonEncrypt
    ⟨(noekeonDecrypt (cipherAt m w.start)).plain, (cipherAt m w.start).key⟩ = cipherAt m w.start from hback,
    putPlain_plain] at h
  exact h

/-- The data memory as the modelled objects fill it. -/
def Device.data (L : Layout) (d : Device) : Mem := d.ramByte L

theorem cipherAt_data (L : Layout) (d : Device) :
    cipherAt (d.data L) L.cipher = d.crd.cipher := by
  have hplain : (d.data L).read L.cipher 16 = d.crd.cipher.plain := by
    funext i
    have hd := Mem.toNat_add_ofNat_sub L.cipher (i := i) (by omega)
    unfold Mem.read Device.data Device.ramByte
    simp only [hd]
    rw [dif_pos i.isLt]
  have hkey : (d.data L).read (L.cipher + 16) 16 = d.crd.cipher.key := by
    funext i
    have hd := Mem.toNat_add_ofNat_sub L.cipher (i := 16 + i) (by omega)
    have ha : L.cipher + 16 + UInt16.ofNat i = L.cipher + UInt16.ofNat (16 + i) := by
      rw [UInt16.ofNat_add, ← UInt16.add_assoc]
      rfl
    unfold Mem.read Device.data Device.ramByte
    simp only [ha, hd, Nat.add_sub_cancel_left]
    rw [dif_neg (by omega), dif_pos i.isLt]
  unfold cipherAt
  rw [hplain, hkey]

/-- Another block in `cipher.plain` is another block in the data memory. -/
theorem data_plain (L : Layout) {d d' : Device} (b : Bytes 16)
    (hc : d'.crd.cipher = ⟨b, d.crd.cipher.key⟩) (hu : d'.usi = d.usi)
    (hr : d'.ram = d.ram) : d'.data L = putPlain (d.data L) L.cipher b := by
  funext a
  unfold putPlain Mem.write Device.data Device.ramByte
  rw [hc, hu, hr]
  split_ifs with h
  · exact congrArg b (Fin.ext (Nat.mod_eq_of_lt h).symm)
  all_goals rfl

def nextBlock (d : Device) : Bytes 16 :=
  d.flash.mem.read (d.crd.credential.encrypt + d.crd.position.toUInt16) 16

theorem applyDecrypt_cipher {d : Device} (h : d.crd.buffpos = 0) :
    (applyDecrypt d).crd.cipher = noekeonDecrypt ⟨nextBlock d, d.crd.cipher.key⟩ := by
  unfold applyDecrypt
  rw [if_pos h]
  rfl

/-- On the data memory, step 1 of `CRD_apply` is the copy and then the routine. -/
theorem applyDecrypt_transforms {L : Layout} (w : Window 32) (hw : w.start = L.cipher) {d : Device}
    (h : d.crd.buffpos = 0) : Transforms (Asm.noekeonDecrypt L.cipher)
      (putPlain (d.data L) L.cipher (nextBlock d)) ((applyDecrypt d).data L) := by
  have ht := noekeonDecrypt_transforms w (putPlain (d.data L) L.cipher (nextBlock d))
  rw [hw, cipherAt_putPlain, cipherAt_data, putPlain_putPlain] at ht
  have hram : (applyDecrypt d).data L = putPlain (d.data L) L.cipher
      (noekeonDecrypt ⟨nextBlock d, d.crd.cipher.key⟩).plain := by
    refine data_plain L _ ?_ ?_ ?_
    · rw [applyDecrypt_cipher h]
      rfl
    · unfold applyDecrypt
      rw [if_pos h]
      rfl
    · unfold applyDecrypt
      rw [if_pos h]
      rfl
  rw [hram]
  exact ht

/-- `noekeon_encrypt` makes the block `b` of the plain text `p` under the key. -/
def EncryptsTo (cipher : UInt16) (key p b : Bytes 16) : Prop :=
  ∃ m m', cipherAt m cipher = ⟨p, key⟩ ∧ Transforms (Asm.noekeonEncrypt cipher) m m' ∧
    m'.read cipher 16 = b

theorem EncryptsTo.eq {w : Window 32} {key p b : Bytes 16} (h : EncryptsTo w.start key p b) :
    b = (noekeonEncrypt ⟨p, key⟩).plain := by
  obtain ⟨m, m', hm, ht, rfl⟩ := h
  rw [ht.unique (noekeonEncrypt_transforms w m), hm]
  exact congrArg Cipher.plain (cipherAt_putPlain m w.start _)

/-- Every block is what encryption makes of some plain text. -/
theorem encryptsTo_decrypted {L : Layout} (w : Window 32) (hw : w.start = L.cipher) (d : Device)
    (b : Bytes 16) :
    EncryptsTo L.cipher d.crd.cipher.key (noekeonDecrypt ⟨b, d.crd.cipher.key⟩).plain b := by
  have ht := noekeonEncrypt_transforms w
    (putPlain (d.data L) L.cipher (noekeonDecrypt ⟨b, d.crd.cipher.key⟩).plain)
  rw [hw, cipherAt_putPlain, cipherAt_data, putPlain_putPlain] at ht
  refine ⟨_, _, ?_, ht, ?_⟩
  · rw [cipherAt_putPlain, cipherAt_data]
  · refine (congrArg Cipher.plain (cipherAt_putPlain (d.data L) L.cipher _)).trans ?_
    exact congrArg Cipher.plain (noekeonEncrypt_noekeonDecrypt ⟨b, d.crd.cipher.key⟩)

/-- The blocks from the selected credential on were made of the plain texts `ps` under the key
that is installed. -/
def BlobOf (L : Layout) (ps : ℕ → Bytes 16) (d : Device) : Prop :=
  ∀ j < 16, EncryptsTo L.cipher d.crd.cipher.key (ps j)
    (d.flash.mem.read (d.crd.credential.encrypt + UInt16.ofNat (16 * j)) 16)

/-- What call `n` of `CRD_apply` has in the buffer when it decrypts. -/
structure ReadsBack (L : Layout) (ps : ℕ → Bytes 16) (d : Device) : Prop where
  routine : Transforms (Asm.noekeonDecrypt L.cipher)
    (putPlain (d.data L) L.cipher (nextBlock d)) ((applyDecrypt d).data L)
  cipher : (applyDecrypt d).crd.cipher = ⟨ps (d.crd.position.toNat / 16), d.crd.cipher.key⟩

theorem readsBack_apply {L : Layout} (w : Window 32) (hw : w.start = L.cipher) {ps : ℕ → Bytes 16}
    {d : Device} (hd : BlobOf L ps d) (n : ℕ) (hb : ((crdApply L)^[n] d).crd.buffpos = 0) :
    ReadsBack L ps ((crdApply L)^[n] d) := by
  have hp := printStep_iterate L d n
  generalize (crdApply L)^[n] d = d' at hb hp
  refine ⟨applyDecrypt_transforms w hw hb, ?_⟩
  have hpos : d'.crd.position.toNat % 16 = 0 := by
    have h := hb
    unfold Crd.buffpos at h
    rwa [UInt8.toNat_mod] at h
  have hlt := d'.crd.position.toNat_lt
  have hblock : nextBlock d' = d.flash.mem.read
      (d.crd.credential.encrypt + UInt16.ofNat (16 * (d'.crd.position.toNat / 16))) 16 := by
    unfold nextBlock
    rw [hp.flash, hp.credential, show 16 * (d'.crd.position.toNat / 16) = d'.crd.position.toNat by
      omega, ← UInt8.toUInt16_ofNat' hlt, UInt8.ofNat_toNat]
  have henc := hd (d'.crd.position.toNat / 16) (by omega)
  rw [← hw] at henc
  rw [applyDecrypt_cipher hb, hblock, henc.eq, hp.key]
  exact noekeonDecrypt_noekeonEncrypt ⟨_, d.crd.cipher.key⟩

/-- Wherever the linker puts `cipher`, as long as the routines may: encryption and decryption undo
each other and change nothing but the plain half, and every block that `CRD_apply` decrypts under
the key it was encrypted with comes out as it went in. -/
theorem noekeon_inverse (cipher : UInt16) (hlow : (lo8 cipher).toNat < 255 - 32) :
    UndoneBy cipher (Asm.noekeonEncrypt cipher) (Asm.noekeonDecrypt cipher) ∧
    UndoneBy cipher (Asm.noekeonDecrypt cipher) (Asm.noekeonEncrypt cipher) ∧
    ∀ (L : Layout) (ps : ℕ → Bytes 16) (d : Device), L.cipher = cipher → BlobOf L ps d →
      ∀ n, ((crdApply L)^[n] d).crd.buffpos = 0 → ReadsBack L ps ((crdApply L)^[n] d) := by
  let w : Window 32 := ⟨cipher, by omega⟩
  exact ⟨encrypt_undoneBy_decrypt w, decrypt_undoneBy_encrypt w,
    fun L ps d hL hd n hb => readsBack_apply w hL.symm hd n hb⟩

/-- Sixteen times a letter, encrypted under the key of PIN 0000. -/
def letters (c : UInt8) : Bytes 16 := (noekeonEncrypt ⟨fun _ => c, fun _ => 0x30⟩).plain

/-- `CRD_apply` before a blob of two blocks. -/
def twoBlocks : Device where
  flash :=
    { mem := fun a => if a < 0x1010 then letters 0x61 (Fin.ofNat 16 a.toNat)
        else letters 0x62 (Fin.ofNat 16 a.toNat) }
  eeprom _ := 0
  ram _ := 0
  crd := { credential := { encrypt := 0x1000 }, cipher := ⟨fun _ => 0, fun _ => 0x30⟩, crdStop := 4 }

/-- `cipher` at 0x70, and the second block of the blob. -/
theorem noekeon_inverse_twoBlocks :
    UndoneBy 0x70 (Asm.noekeonEncrypt 0x70) (Asm.noekeonDecrypt 0x70) ∧
    UndoneBy 0x70 (Asm.noekeonDecrypt 0x70) (Asm.noekeonEncrypt 0x70) ∧
    ReadsBack sampleLayout (fun j => (noekeonDecrypt ⟨twoBlocks.flash.mem.read
        (0x1000 + UInt16.ofNat (16 * j)) 16, fun _ => 0x30⟩).plain) ((crdApply sampleLayout)^[1] twoBlocks) ∧
    ((crdApply sampleLayout)^[1] twoBlocks).crd.position = 16 := by
  obtain ⟨h1, h2, h3⟩ := noekeon_inverse 0x70 (by decide)
  refine ⟨h1, h2, h3 sampleLayout _ _ rfl (fun j hj => ?_) 1 (by decide +kernel), by decide +kernel⟩
  exact encryptsTo_decrypted ⟨0x70, by decide⟩ rfl twoBlocks _

end Memtype
