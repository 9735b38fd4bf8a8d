import AkwaDB.Wal.File

/-!
# AkwaDB.Wal.Recovery

Opening a log, and what `Recover` makes of the bytes it finds.

An encrypted log begins with 32 bytes that name its key and hold the base IV. Opening a file looks for them;
a file without them is a plain log, and is refused when the keys are given.

Behind the header everything is decided by the records. What `Recover` returns is the longest sequence of
records that the file begins with, each with the offset of its value, and what it leaves of the file is their
encoding. Two kinds of log are not read back: those with a record whose lengths do not fit the four bytes they
have, and plain logs whose first record looks like the header of an encrypted one.

- `wal_recovery_law`: the law, and the records it does not hold for.
-/

namespace AkwaDB
namespace Wal

/-! ## Offsets of values -/

/-- `Recover` gives each record the offset of its value. -/
def locate : Nat → List (Record × Nat) → List (Record × Nat)
  | _, [] => []
  | off, (r, n) :: rest => (r, off + walHeaderSize + r.key.length) :: locate (off + n) rest

/-- The offsets that `WriteVersion` returns for records written one after another. -/
def valueOffsets : Nat → List Record → List Nat
  | _, [] => []
  | off, r :: rs => (off + walHeaderSize + r.key.length) :: valueOffsets (off + r.size) rs

theorem locate_scan (ks : Nat → UInt8) (off : Nat) (bs : Bytes) :
    locate off ((format ks).reader.scan off bs) =
      ((format ks).reader.records off bs).zip (valueOffsets off ((format ks).reader.records off bs)) := by
  induction off, bs using (format ks).reader.scan_induct with
  | stop off bs h => rw [Reader.scan_none _ h, Reader.records_none _ h]; rfl
  | step off bs r n h ih =>
    obtain ⟨-, rfl, -⟩ := (format ks).next_iff.mp h
    rw [Reader.scan_some _ h, Reader.records_some _ h, locate, ih, valueOffsets, List.zip_cons_cons]
    have hsize : ((format ks).enc off r).length = r.size := writeDirect_size ks off r
    rw [hsize]

theorem valueOffsets_append (off : Nat) (rs qs : List Record) : valueOffsets off (rs ++ qs) =
    valueOffsets off rs ++ valueOffsets (off + (rs.map Record.size).sum) qs := by
  induction rs generalizing off with
  | nil => rfl
  | cons r rs ih =>
    rw [List.cons_append, valueOffsets, ih, List.map_cons, List.sum_cons, ← Nat.add_assoc]
    rfl

theorem valueOffsets_length (off : Nat) (rs : List Record) : (valueOffsets off rs).length = rs.length := by
  induction rs generalizing off with
  | nil => rfl
  | cons r rs ih => rw [valueOffsets, List.length_cons, List.length_cons, ih]

namespace WalFile

variable {start : Nat}

@[ext] theorem ext {a b : WalFile start} (hfile : a.file = b.file) (hoff : a.currentOffset = b.currentOffset) :
    a = b := by
  cases a
  cases b
  cases hfile
  cases hoff
  rfl

def Even (w : WalFile start) : Prop := w.currentOffset = w.file.length

def writes (ks : Nat → UInt8) : WalFile start → List Record → List Nat × WalFile start
  | w, [] => ([], w)
  | w, r :: rs =>
    let rest := writes ks (w.writeVersion ks (.written r.size false) r).2 rs
    ((w.currentOffset + walHeaderSize + r.key.length) :: rest.1, rest.2)

theorem writes_eq (ks : Nat → UInt8) {w : WalFile start} (h : w.Even) (rs : List Record) :
    (w.writes ks rs).1 = valueOffsets w.currentOffset rs ∧
      (w.writes ks rs).2.file = w.file ++ writeAll ks w.currentOffset rs ∧ (w.writes ks rs).2.Even := by
  induction rs generalizing w with
  | nil => exact ⟨rfl, (List.append_nil _).symm, h⟩
  | cons r rs ih =>
    have hsize := writeDirect_size ks w.currentOffset r
    have hoff := @writeVersion_offset start ks (.written r.size false) w r r.size (le_refl _)
    have hfile : (w.writeVersion ks (.written r.size false) r).2.file = w.file ++ writeDirect ks w.currentOffset r := by
      simp [writeVersion, ← hsize]
    have heven : (w.writeVersion ks (.written r.size false) r).2.Even := by
      rw [Even, hoff, hfile, List.length_append, hsize, h]
    obtain ⟨hoffs, hrest, hev⟩ := ih heven
    refine ⟨?_, ?_, hev⟩
    · rw [writes, valueOffsets, hoffs, hoff]
    · rw [writes, hrest, hoff, hfile, List.append_assoc, writeAll_cons]

def recoverRecords (ks : Nat → UInt8) (w : WalFile start) : List (Record × Nat) :=
  locate start ((format ks).reader.scan start (w.file.drop start))

def readValue (ks : Nat → UInt8) (w : WalFile start) (offset size : Nat) : Bytes :=
  crypt ks offset ((w.file.drop offset).take size)

/-! ## What `Recover` finds and leaves -/

variable {ks : Nat → UInt8}

theorem recoverRecords_eq (w : WalFile start) :
    w.recoverRecords ks = (w.records ks).zip (valueOffsets start (w.records ks)) := locate_scan ks start _

theorem map_fst_recoverRecords (w : WalFile start) : (w.recoverRecords ks).map Prod.fst = w.records ks := by
  rw [recoverRecords_eq, List.map_fst_zip (by rw [valueOffsets_length])]

theorem fits_of_mem_records {w : WalFile start} {r : Record} (h : r ∈ w.records ks) : r.Fits :=
  (format ks).fits_of_mem_records h

theorem recovered_file (w : WalFile start) :
    (w.recovered ks).file = w.file.take start ++ writeAll ks start (w.records ks) := by
  change w.file.take (start + (format ks).reader.consumed start (w.file.drop start)) = _
  rw [List.take_add]
  exact congrArg (w.file.take start ++ ·) ((format ks).write_records start (w.file.drop start)).symm

theorem recovered_even (w : WalFile start) : (w.recovered ks).Even := rfl

theorem readRecord_nil (ks : Nat → UInt8) (off : Nat) : readRecord ks off [] = none := (format ks).reader.next_nil off

theorem records_of_file {w : WalFile start} {head tail : Bytes} {rs : List Record} (hhead : head.length = start)
    (hfits : ∀ r ∈ rs, r.Fits) (hfile : w.file = head ++ writeAll ks start rs ++ tail)
    (htail : readRecord ks (head ++ writeAll ks start rs).length tail = none) :
    w.records ks = rs ∧ (w.recovered ks).file = head ++ writeAll ks start rs := by
  have hdrop : w.file.drop start = writeAll ks start rs ++ tail := by
    rw [hfile, List.append_assoc, List.drop_left' hhead]
  have htake : w.file.take start = head := by
    rw [hfile, List.append_assoc, List.take_left' hhead]
  have hrec : w.records ks = rs := by
    change (format ks).reader.records start (w.file.drop start) = rs
    rw [hdrop, writeAll, ((format ks).writer.scan_write start hfits tail).1]
    rw [List.length_append, hhead] at htail
    rw [Reader.records_none _ htail, List.append_nil]
  exact ⟨hrec, by rw [recovered_file, hrec, htake]⟩

theorem readValue_of_mem_scan {off : Nat} {bs : Bytes} {p : Record × Nat}
    (h : p ∈ locate off ((format ks).reader.scan off bs)) :
    off ≤ p.2 ∧ crypt ks p.2 ((bs.drop (p.2 - off)).take p.1.value.length) = p.1.value := by
  induction off, bs using (format ks).reader.scan_induct with
  | stop off bs hnext => rw [Reader.scan_none _ hnext] at h; cases h
  | step off bs r n hnext ih =>
    obtain ⟨-, rfl, rest, rfl⟩ := (format ks).next_iff.mp hnext
    rw [Reader.scan_some _ hnext, locate] at h
    rcases List.mem_cons.mp h with rfl | h
    · obtain ⟨-, -, -, hval⟩ := writeDirect_fields ks off r rest
      refine ⟨by omega, ?_⟩
      dsimp only
      rw [show off + walHeaderSize + r.key.length - off = walHeaderSize + r.key.length by omega]
      exact (congrArg (crypt ks _) hval).trans (crypt_crypt ..)
    · obtain ⟨hle, hread⟩ := ih h
      refine ⟨by omega, ?_⟩
      rw [List.drop_drop] at hread
      rwa [show p.2 - off = ((format ks).enc off r).length + (p.2 - (off + ((format ks).enc off r).length)) by omega]

theorem readValue_recovered {w : WalFile start} {p : Record × Nat} (h : p ∈ w.recoverRecords ks) :
    w.readValue ks p.2 p.1.value.length = p.1.value := by
  obtain ⟨hle, hread⟩ := readValue_of_mem_scan h
  rw [List.drop_drop, Nat.add_sub_cancel' hle] at hread
  exact hread

theorem recovered_recovered (w : WalFile start) : (w.recovered ks).recoverRecords ks = w.recoverRecords ks ∧
    (w.recovered ks).recovered ks = w.recovered ks := by
  have hlen : (w.file.take start).length = start := by
    rw [List.length_take]
    exact Nat.min_eq_left w.start_le_length
  have hfile := @recovered_file start ks w
  obtain ⟨hrec, hleft⟩ := @records_of_file start ks (w.recovered ks) (w.file.take start) [] (w.records ks) hlen
    (fun r hr => fits_of_mem_records hr) (by rw [List.append_nil]; exact hfile) (readRecord_nil ks _)
  refine ⟨by rw [recoverRecords_eq, recoverRecords_eq, hrec], ?_⟩
  have hsame : ((w.recovered ks).recovered ks).file = (w.recovered ks).file := hleft.trans hfile.symm
  exact WalFile.ext hsame (congrArg List.length hsame)

theorem recoverRecords_writes (w : WalFile start) (qs : List Record) :
    ((w.recovered ks).writes ks qs).2.recoverRecords ks =
      w.recoverRecords ks ++ qs.zip ((w.recovered ks).writes ks qs).1 ↔ ∀ q ∈ qs, q.Fits := by
  obtain ⟨hoffs, hfile, -⟩ := writes_eq ks (@recovered_even start ks w) qs
  have hlen : (w.file.take start).length = start := by
    rw [List.length_take]
    exact Nat.min_eq_left w.start_le_length
  have hoff : (w.recovered ks).currentOffset = start + (writeAll ks start (w.records ks)).length := by
    rw [recovered_even, recovered_file, List.length_append, hlen]
  constructor
  · intro h q hq
    have hmap := congrArg (List.map Prod.fst) h
    have hzip : (qs.zip ((w.recovered ks).writes ks qs).1).map Prod.fst = qs :=
      List.map_fst_zip (by rw [hoffs, valueOffsets_length])
    rw [map_fst_recoverRecords, List.map_append, map_fst_recoverRecords, hzip] at hmap
    exact fits_of_mem_records (hmap ▸ List.mem_append_right _ hq)
  · intro hfits
    have hall : ∀ r ∈ w.records ks ++ qs, r.Fits := by
      intro r hr
      exact (List.mem_append.mp hr).elim (fun hr => fits_of_mem_records hr) (hfits r)
    have hfile' : ((w.recovered ks).writes ks qs).2.file =
        w.file.take start ++ writeAll ks start (w.records ks ++ qs) ++ [] := by
      rw [hfile, recovered_file, hoff, writeAll_append, List.append_nil, List.append_assoc]
    obtain ⟨hrec, -⟩ := records_of_file hlen hall hfile' (readRecord_nil ks _)
    rw [recoverRecords_eq, hrec, recoverRecords_eq, valueOffsets_append, hoffs, hoff, writeAll_length,
      List.zip_append (valueOffsets_length _ _).symm]

end WalFile

def walFileMagic : Nat := 0x57414C46

def walFileVersion : Nat := 1

def walEncHeaderSize : Nat := 32

structure BaseIV where
  bytes : Bytes
  length_eq : bytes.length = 16

/-- `crypto.KeyRegistry`: a key is given by its keystreams, one for each base IV. -/
structure KeyRegistry where
  activeKey : UInt64
  getKey : UInt64 → Option (Bytes → Nat → UInt8)
  active_known : (getKey activeKey).isSome = true

def fileHeader (keyID : UInt64) (iv : BaseIV) : Bytes :=
  bePut 4 walFileMagic ++ bePut 4 walFileVersion ++ bePut 8 keyID.toNat ++ iv.bytes

@[simp] theorem fileHeader_length (keyID : UInt64) (iv : BaseIV) :
    (fileHeader keyID iv).length = walEncHeaderSize := by
  simp [fileHeader, iv.length_eq, walEncHeaderSize]

/-- The first eight bytes are those of an encrypted file. -/
def hasMagic (file : Bytes) : Bool :=
  decide (8 ≤ file.length) && decide (beGet (file.take 4) = walFileMagic) &&
    decide (beGet ((file.drop 4).take 4) = walFileVersion)

inductive OpenError where
  | readHeader
  | noRegistry
  | unknownKey
  | notEncrypted
  deriving DecidableEq

structure OpenLog where
  ks : Nat → UInt8
  start : Nat
  wal : WalFile start

def KeyRegistry.stream (reg : KeyRegistry) (iv : BaseIV) : Nat → UInt8 :=
  (reg.getKey reg.activeKey).get reg.active_known iv.bytes

theorem KeyRegistry.stream_eq (reg : KeyRegistry) {stream : Bytes → Nat → UInt8}
    (h : reg.getKey reg.activeKey = some stream) (iv : BaseIV) : reg.stream iv = stream iv.bytes :=
  congrFun (Option.get_of_eq_some _ h) iv.bytes

def newLog (iv : BaseIV) : Option KeyRegistry → OpenLog
  | none => ⟨fun _ => 0, 0, [], 0, Nat.zero_le _, Nat.zero_le _⟩
  | some reg => ⟨reg.stream iv, walEncHeaderSize, fileHeader reg.activeKey iv, walEncHeaderSize, by simp, Nat.le_refl _⟩

/-- `OpenWithOptionsAndRegistry`, with the base IV that a new file would get. -/
def openLog (reg : Option KeyRegistry) (iv : BaseIV) (file : Bytes) : Except OpenError OpenLog :=
  if file = [] then .ok (newLog iv reg)
  else if hasMagic file then
    if h : file.length < walEncHeaderSize then .error .readHeader
    else
      match reg with
      | none => .error .noRegistry
      | some reg =>
        match reg.getKey (UInt64.ofNat (beGet ((file.drop 8).take 8))) with
        | none => .error .unknownKey
        | some stream =>
          .ok ⟨stream ((file.drop 16).take 16), walEncHeaderSize, file, file.length, Nat.le_of_not_lt h,
            Nat.le_of_not_lt h⟩
  else
    match reg with
    | some _ => .error .notEncrypted
    | none => .ok ⟨fun _ => 0, 0, file, file.length, Nat.zero_le _, Nat.zero_le _⟩

namespace OpenLog

def writes (l : OpenLog) (rs : List Record) : List Nat × OpenLog :=
  ((l.wal.writes l.ks rs).1, ⟨l.ks, l.start, (l.wal.writes l.ks rs).2⟩)

def recover (l : OpenLog) : List (Record × Nat) × OpenLog :=
  (l.wal.recoverRecords l.ks, ⟨l.ks, l.start, l.wal.recovered l.ks⟩)

def readValue (l : OpenLog) (offset size : Nat) : Bytes := l.wal.readValue l.ks offset size

end OpenLog

theorem hasMagic_header (keyID : UInt64) (iv : BaseIV) (rest : Bytes) :
    hasMagic (fileHeader keyID iv ++ rest) = true := by
  have hmagic : beGet (bePut 4 walFileMagic) = walFileMagic := by decide
  have hversion : beGet (bePut 4 walFileVersion) = walFileVersion := by decide
  simp [hasMagic, fileHeader, hmagic, hversion]
  omega

theorem openLog_header (reg : KeyRegistry) (iv iv' : BaseIV) (rest : Bytes) :
    openLog (some reg) iv' (fileHeader reg.activeKey iv ++ rest) =
      .ok ⟨reg.stream iv, walEncHeaderSize,
        fileHeader reg.activeKey iv ++ rest, (fileHeader reg.activeKey iv ++ rest).length, by simp, by simp⟩ := by
  have hne : fileHeader reg.activeKey iv ++ rest ≠ [] := by
    intro h
    have hlen := congrArg List.length h
    rw [List.length_append, fileHeader_length, walEncHeaderSize, List.length_nil] at hlen
    omega
  have hlong : ¬(fileHeader reg.activeKey iv ++ rest).length < walEncHeaderSize := by simp
  have hkey : UInt64.ofNat (beGet (((fileHeader reg.activeKey iv ++ rest).drop 8).take 8)) = reg.activeKey := by
    have hcut : ((fileHeader reg.activeKey iv ++ rest).drop 8).take 8 = bePut 8 reg.activeKey.toNat := by
      simp [fileHeader, List.drop_append, List.drop_eq_nil_of_le]
    rw [hcut, ofNat_beGet_bePut]
  have hiv : ((fileHeader reg.activeKey iv ++ rest).drop 16).take 16 = iv.bytes := by
    simp [fileHeader, List.drop_append, List.drop_eq_nil_of_le, iv.length_eq]
  obtain ⟨stream, hstream⟩ := Option.isSome_iff_exists.mp reg.active_known
  have hiv' := reg.stream_eq hstream iv
  unfold openLog
  rw [if_neg hne, if_pos (hasMagic_header _ iv rest), dif_neg hlong]
  dsimp only
  simp only [hkey, hstream, hiv, hiv']

theorem openLog_plain (iv : BaseIV) {file : Bytes} (h : hasMagic file = false) :
    openLog none iv file = .ok ⟨fun _ => 0, 0, file, file.length, Nat.zero_le _, Nat.zero_le _⟩ := by
  unfold openLog
  by_cases hne : file = []
  · subst hne
    rfl
  · rw [if_neg hne, h]
    rfl

theorem openLog_magic (iv : BaseIV) {file : Bytes} (h : hasMagic file = true) :
    ∃ e, openLog none iv file = .error e := by
  have hne : file ≠ [] := by
    rintro rfl
    cases h
  unfold openLog
  rw [if_neg hne, if_pos h]
  split
  · exact ⟨_, rfl⟩
  · exact ⟨_, rfl⟩

theorem newLog_even (iv : BaseIV) (reg : Option KeyRegistry) : (newLog iv reg).wal.file.length = (newLog iv reg).start ∧
    (newLog iv reg).wal.currentOffset = (newLog iv reg).start := by
  cases reg with
  | none => exact ⟨rfl, rfl⟩
  | some reg => exact ⟨fileHeader_length _ _, rfl⟩

/-! ## Plain logs that look encrypted -/

/-- The file of a plain log begins like an encrypted one. -/
def Mistaken : List Record → Bytes → Prop
  | [], tail => hasMagic tail = true
  | r :: _, _ => r.op = 0x57 ∧ r.key.length % 256 ^ 4 = 0x414C4600 ∧ r.value.length % 256 ^ 4 / 256 = 1

theorem mistaken_iff (rs : List Record) (tail : Bytes) :
    hasMagic (writeAll (fun _ => 0) 0 rs ++ tail) = true ↔ Mistaken rs tail := by
  cases rs with
  | nil => exact Iff.rfl
  | cons r rs =>
    rw [writeAll_cons, List.append_assoc]
    obtain ⟨hhead, -⟩ := writeDirect_fields (fun _ => 0) 0 r (writeAll (fun _ => 0) (0 + r.size) rs ++ tail)
    rw [crypt_length, crypt_length] at hhead
    set file := writeDirect (fun _ => 0) 0 r ++ (writeAll (fun _ => 0) (0 + r.size) rs ++ tail) with hfile
    have hlen : 8 ≤ file.length := by
      rw [hfile, List.length_append, writeDirect_length, walHeaderSize]
      omega
    -- the operation and both lengths are in the first nine bytes
    have hfirst := @field_of_take file _ hhead 0 4 (by decide)
    have hsecond := @field_of_take file _ hhead 4 4 (by decide)
    rw [List.drop_zero] at hfirst
    have hop : r.op = 0x57 ↔ r.op.toNat = 0x57 := UInt8.toNat_inj.symm
    rw [hasMagic, hfirst, hsecond, Mistaken, hop]
    simp only [hlen, header, bePut, List.cons_append, List.nil_append, List.drop_succ_cons, List.drop_zero,
      List.take_succ_cons, List.take_zero, beGet, List.length_cons, List.length_nil, UInt8.toNat_ofNat', walFileMagic,
      walFileVersion, decide_true, Bool.true_and, Bool.and_eq_true, decide_eq_true_eq]
    have hop256 := r.op.toNat_lt
    omega

/-- **The law of recovery**: when records come back, and that `Recover` reads again what it leaves. -/
theorem wal_recovery_law (reg : Option KeyRegistry) (iv iv' : BaseIV) (rs : List Record) (tail : Bytes)
    (o : OpenLog) :
    (let l := newLog iv reg
     readRecord l.ks (l.writes rs).2.wal.file.length tail = none →
      ((∃ l', openLog reg iv' ((l.writes rs).2.wal.file ++ tail) = .ok l' ∧
          l'.recover = (rs.zip (l.writes rs).1, (l.writes rs).2)) ↔
        (∀ r ∈ rs, r.Fits) ∧ (reg = none → ¬Mistaken rs tail))) ∧
    o.recover.2.wal.file = o.wal.file.take o.start ++ writeAll o.ks o.start (o.recover.1.map Prod.fst) ∧
    (∀ p ∈ o.recover.1, o.recover.2.readValue p.2 p.1.value.length = p.1.value) ∧
    o.recover.2.recover = o.recover ∧
    ∀ qs, (o.recover.2.writes qs).2.recover.1 = o.recover.1 ++ qs.zip (o.recover.2.writes qs).1 ↔
      ∀ q ∈ qs, q.Fits := by
  constructor
  · intro l htail
    obtain ⟨hstart, hoff⟩ := newLog_even iv reg
    obtain ⟨hoffs, hfile, heven⟩ := WalFile.writes_eq l.ks (hoff.trans hstart.symm) rs
    rw [hoff] at hoffs hfile
    have hmistaken : reg = none → (hasMagic ((l.writes rs).2.wal.file ++ tail) = true ↔ Mistaken rs tail) := by
      rintro rfl
      rw [← mistaken_iff]
      exact iff_of_eq (congrArg (fun f => hasMagic (f ++ tail) = true) hfile)
    constructor
    · rintro ⟨l', hopen, hrec⟩
      have hrecords : l'.wal.records l'.ks = rs := by
        have hmap := congrArg (fun x => x.1.map Prod.fst) hrec
        rwa [OpenLog.recover, WalFile.map_fst_recoverRecords, OpenLog.writes, hoffs,
          List.map_fst_zip (by rw [valueOffsets_length])] at hmap
      refine ⟨fun r hr => WalFile.fits_of_mem_records (hrecords ▸ hr), fun hplain hm => ?_⟩
      subst hplain
      obtain ⟨e, he⟩ := openLog_magic iv' ((hmistaken rfl).mpr hm)
      rw [he] at hopen
      cases hopen
    · rintro ⟨hfits, hplain⟩
      -- opened again with the same keystream behind the same header
      obtain ⟨w', hopen, hw'⟩ : ∃ w' : WalFile l.start,
          openLog reg iv' ((l.writes rs).2.wal.file ++ tail) = .ok ⟨l.ks, l.start, w'⟩ ∧
            w'.file = (l.writes rs).2.wal.file ++ tail := by
        cases reg with
        | none => exact ⟨_, openLog_plain iv' (Bool.eq_false_iff.mpr (mt (hmistaken rfl).mp (hplain rfl))), rfl⟩
        | some reg =>
          have hsplit : (l.writes rs).2.wal.file ++ tail =
              fileHeader reg.activeKey iv ++ (writeAll l.ks l.start rs ++ tail) := by
            rw [← List.append_assoc]
            exact congrArg (· ++ tail) hfile
          rw [hsplit]
          exact ⟨_, openLog_header reg iv iv' _, rfl⟩
      refine ⟨_, hopen, ?_⟩
      have hfile' : (l.writes rs).2.wal.file = l.wal.file ++ writeAll l.ks l.start rs := hfile
      rw [hfile'] at hw' htail
      obtain ⟨hrec, hleft⟩ := WalFile.records_of_file hstart hfits hw' htail
      have hsame : (w'.recovered l.ks) = (l.wal.writes l.ks rs).2 := by
        refine WalFile.ext (hleft.trans hfile.symm) ?_
        rw [heven, hfile, ← hleft]
        rfl
      rw [OpenLog.recover, OpenLog.writes, WalFile.recoverRecords_eq, hrec, hsame, hoffs]
  · obtain ⟨hrec, hfile⟩ := @WalFile.recovered_recovered o.start o.ks o.wal
    refine ⟨?_, ?_, ?_, fun qs => o.wal.recoverRecords_writes qs⟩
    · rw [OpenLog.recover, WalFile.map_fst_recoverRecords]
      exact o.wal.recovered_file
    · intro p hp
      exact WalFile.readValue_recovered (hrec ▸ hp)
    · simp only [OpenLog.recover, hrec, hfile]

theorem torn_log_recovered :
    let iv : BaseIV := ⟨List.replicate 16 0, rfl⟩
    let r : Record := ⟨opPut, [107], [118, 119], 0, 7, 5⟩
    let l := newLog iv none
    ∃ l', openLog none iv ((l.writes [r]).2.wal.file ++ [1, 0, 0]) = .ok l' ∧
      l'.recover = ([(r, 38)], (l.writes [r]).2) := by
  intro iv r l
  have hlaw := ((wal_recovery_law none iv iv [r] [1, 0, 0] l).1 (by decide +kernel)).mpr
    ⟨by simp [r, Record.Fits], fun _ => by simp [Mistaken, r, opPut]⟩
  exact hlaw

def zeros (n : Nat) : Bytes := List.replicate n 0

theorem zeros_length (n : Nat) : (zeros n).length = n := List.length_replicate

/-- A key of 2^32 bytes has length 0, and a plain log is taken for an encrypted one. -/
theorem long_key_not_recovered :
    let iv : BaseIV := ⟨zeros 16, zeros_length 16⟩
    let long : Record := ⟨opPut, zeros (2 ^ 32), [], 0, 1, 0⟩
    let odd : Record := ⟨0x57, zeros 0x414C4600, zeros 256, 0, 1, 0⟩
    let l := newLog iv none
    (∀ l', openLog none iv (l.writes [long]).2.wal.file = .ok l' → l'.recover.1.map Prod.fst ≠ [long]) ∧
      ∀ l', openLog none iv (l.writes [odd]).2.wal.file ≠ .ok l' := by
  intro iv long odd l
  constructor
  · intro l' _ hrec
    rw [OpenLog.recover, WalFile.map_fst_recoverRecords] at hrec
    have hfits : long.Fits := @WalFile.fits_of_mem_records l'.start l'.ks l'.wal long (hrec ▸ List.mem_singleton_self _)
    have hkey : (zeros (2 ^ 32)).length < 256 ^ 4 := hfits.1
    rw [zeros_length] at hkey
    omega
  · intro l' hopen
    have hmistaken : Mistaken [odd] [] := ⟨rfl, by rw [zeros_length]; norm_num, by rw [zeros_length]; norm_num⟩
    have hfile : (l.writes [odd]).2.wal.file = writeAll (fun _ => 0) 0 [odd] ++ [] := by
      rw [List.append_nil]
      exact (@WalFile.writes_eq 0 (fun _ => 0) l.wal rfl [odd]).2.1
    obtain ⟨e, he⟩ := openLog_magic iv ((mistaken_iff [odd] []).mpr hmistaken)
    rw [hfile, he] at hopen
    cases hopen

end Wal
end AkwaDB
