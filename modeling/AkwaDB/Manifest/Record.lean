import AkwaDB.Lib.Scan

/-!
# AkwaDB.Manifest.Record

The MANIFEST file: a log of `A`/`D` records that add and delete tables by sequence number.

`appendManifest` frames a record as length, checksum and data; `readManifest` replays the file
when the engine opens and then cuts it. The format is a `Reader`; the map `readManifest` returns
is the replay of the records it reads (`readManifest_levels`), and on a file of whole records one
more record is one more step of the replay (`Clean.append`).
-/

namespace AkwaDB
namespace Manifest

structure Record where
  action : UInt8
  level : Nat
  seqNum : Nat
  minKey : Bytes
  maxKey : Bytes
  deriving DecidableEq, Repr

/-- The byte `'A'`: the table is live from here on. -/
def actionAdd : UInt8 := 65

/-- The byte `'D'`: the table is gone. -/
def actionDel : UInt8 := 68

def encodeManifestRecord (action : UInt8) (level seqNum : Nat) (minKey maxKey : Bytes) : Bytes :=
  [action, UInt8.ofNat level] ++ bePut 8 seqNum ++ bePut 4 minKey.length ++
    bePut 4 maxKey.length ++ minKey ++ maxKey

def Record.data (r : Record) : Bytes :=
  encodeManifestRecord r.action r.level r.seqNum r.minKey r.maxKey

/-- The three pieces `appendManifest` and `compactManifest` write for one record. -/
def frame (data : Bytes) : Bytes :=
  bePut 4 data.length ++ bePut 4 (crc32 data).toNat ++ data

def appendManifest (file : Bytes) (action : UInt8) (level seqNum : Nat) (minKey maxKey : Bytes) :
    Bytes :=
  file ++ frame (encodeManifestRecord action level seqNum minKey maxKey)

/-- `readManifest` takes a longer record for damage. -/
def maxDataLen : Nat := 10 * 1024 * 1024

/-- The data of the next record and the size of its frame, or `none` where the loop breaks. -/
def readFrame (bs : Bytes) : Option (Bytes × Nat) :=
  if bs.length < 4 then none
  else
    let dataLen := beGet (bs.take 4)
    if maxDataLen < dataLen then none
    else if bs.length < 8 then none
    else
      let expectedCRC := beGet ((bs.drop 4).take 4)
      if bs.length < 8 + dataLen then none
      else
        let data := (bs.drop 8).take dataLen
        if (crc32 data).toNat ≠ expectedCRC then none
        else some (data, 8 + dataLen)

@[simp] theorem frame_length (data : Bytes) : (frame data).length = 8 + data.length := by
  simp [frame]; omega

theorem lt_of_le_maxDataLen {n : Nat} (h : n ≤ maxDataLen) : n < 256 ^ 4 := by
  simp only [maxDataLen] at h; omega

theorem readFrame_eq_some {bs data : Bytes} {n : Nat} :
    readFrame bs = some (data, n) ↔
      data.length ≤ maxDataLen ∧ n = 8 + data.length ∧ frame data <+: bs := by
  constructor
  · intro h
    simp only [readFrame] at h
    split at h
    · cases h
    split at h
    · cases h
    split at h
    · cases h
    split at h
    · cases h
    split at h
    · cases h
    · rename_i h4 hmax h8 hlen hcrc
      cases h
      have hdl : ((bs.drop 8).take (beGet (bs.take 4))).length = beGet (bs.take 4) := length_field (by omega)
      refine ⟨by omega, by omega, ⟨bs.drop (8 + beGet (bs.take 4)), ?_⟩⟩
      have hc : (crc32 ((bs.drop 8).take (beGet (bs.take 4)))).toNat = beGet ((bs.drop 4).take 4) :=
        not_not.mp hcrc
      rw [frame, hdl, hc, bePut_beGet (by simp only [List.length_take]; omega),
        bePut_field (by omega)]
      have e1 : bs.take 4 ++ (bs.drop 4).take 4 = bs.take 8 := by rw [← List.take_add]
      rw [e1, ← List.take_add, List.take_append_drop]
  · rintro ⟨hmax, rfl, rest, rfl⟩
    have hlt := lt_of_le_maxDataLen hmax
    have e4 : (frame data ++ rest).take 4 = bePut 4 data.length := by
      simp [frame, List.append_assoc]
    have ec : ((frame data ++ rest).drop 4).take 4 = bePut 4 (crc32 data).toNat := by
      simp [frame, List.append_assoc]
    have ed : ((frame data ++ rest).drop 8).take data.length = data := by
      have : (frame data ++ rest).drop 8 = data ++ rest := by
        rw [frame, List.append_assoc, List.drop_left' (by simp)]
      rw [this, List.take_left]
    have hl : (frame data ++ rest).length = 8 + data.length + rest.length := by simp
    simp only [readFrame, e4, ec, beGet_bePut_of_lt hlt, beGet_bePut_of_lt (crc32_lt data), ed]
    rw [if_neg (by omega), if_neg (by omega), if_neg (by omega), if_neg (by omega),
      if_neg (by simp)]

def format : Format Bytes where
  next _ bs := readFrame bs
  enc _ data := frame data
  fits data := data.length ≤ maxDataLen
  enc_pos _ data := by rw [frame_length]; omega
  next_iff {_ _ data _} := by rw [frame_length]; exact readFrame_eq_some

def reader : Reader Bytes := format.reader

/-- Writing it: a record is read back when its data is not too long. -/
def writer : Writer reader := format.writer

abbrev Levels := Nat → Option Nat

def applyRecord (levels : Levels) (data : Bytes) : Levels :=
  if data.length < 18 then levels
  else
    let action := data.getD 0 0
    let level := (data.getD 1 0).toNat
    let seqNum := beGet ((data.drop 2).take 8)
    if action = actionAdd then fun s => if s = seqNum then some level else levels s
    else if action = actionDel then fun s => if s = seqNum then none else levels s
    else levels

def replay (datas : List Bytes) : Levels := datas.foldl applyRecord fun _ => none

/-- The loop overwrites `lastValidOffset` with each size; it does not add the sizes up. -/
def lastValidOffset (frames : List (Bytes × Nat)) : Nat := frames.foldl (fun _ f => f.2) 0

/-- `readManifest`: the map it returns and the file it leaves. -/
def readManifest (file : Bytes) : Levels × Bytes :=
  let frames := reader.scan 0 file
  let levels := frames.foldl (fun ls f => applyRecord ls f.1) fun _ => none
  let last := lastValidOffset frames
  (levels, if 0 < last then file.take last else file)

theorem readManifest_levels (file : Bytes) :
    (readManifest file).1 = replay (reader.records 0 file) := by
  simp only [readManifest, replay, Reader.records, List.foldl_map]

theorem readManifest_file (file : Bytes) :
    (readManifest file).2 =
      if 0 < lastValidOffset (reader.scan 0 file) then
        file.take (lastValidOffset (reader.scan 0 file))
      else file := rfl

theorem readManifest_write {datas : List Bytes} (h : ∀ d ∈ datas, d.length ≤ maxDataLen) :
    (readManifest (writer.write 0 datas)).1 = replay datas := by
  rw [readManifest_levels, writer.records_write 0 h]

/-! ## The records the engine writes -/

theorem data_length (r : Record) :
    r.data.length = 18 + r.minKey.length + r.maxKey.length := by
  simp [Record.data, encodeManifestRecord]
  omega

theorem data_level (r : Record) (hs : r.seqNum < 2 ^ 64) (hl : r.level < 256) :
    r.data.getD 0 0 = r.action ∧ (r.data.getD 1 0).toNat = r.level ∧
      beGet ((r.data.drop 2).take 8) = r.seqNum := by
  refine ⟨rfl, ?_, ?_⟩
  · simp [Record.data, encodeManifestRecord, Nat.mod_eq_of_lt hl]
  · have : (r.data.drop 2).take 8 = bePut 8 r.seqNum := by
      simp [Record.data, encodeManifestRecord]
    rw [this, beGet_bePut_of_lt (by norm_num at hs ⊢; exact hs)]

theorem applyRecord_add (levels : Levels) {r : Record} (ha : r.action = actionAdd)
    (hs : r.seqNum < 2 ^ 64) (hl : r.level < 256) :
    applyRecord levels r.data = fun s => if s = r.seqNum then some r.level else levels s := by
  obtain ⟨h0, h1, h2⟩ := data_level r hs hl
  have hlen := data_length r
  rw [applyRecord, if_neg (by omega), h0, h1, h2, if_pos ha]

theorem applyRecord_del (levels : Levels) {r : Record} (ha : r.action = actionDel)
    (hs : r.seqNum < 2 ^ 64) (hl : r.level < 256) :
    applyRecord levels r.data = fun s => if s = r.seqNum then none else levels s := by
  obtain ⟨h0, h1, h2⟩ := data_level r hs hl
  have hlen := data_length r
  rw [applyRecord, if_neg (by omega), h0, h1, h2, if_neg (by rw [ha]; decide), if_pos ha]

def Clean (file : Bytes) : Prop :=
  ∃ datas : List Bytes, (∀ d ∈ datas, d.length ≤ maxDataLen) ∧ file = writer.write 0 datas

theorem Clean.append {file : Bytes} (h : Clean file) {d : Bytes} (hd : d.length ≤ maxDataLen) :
    Clean (file ++ frame d) ∧
      (readManifest (file ++ frame d)).1 = applyRecord (readManifest file).1 d := by
  obtain ⟨datas, hfit, rfl⟩ := h
  have hfit' : ∀ x ∈ datas ++ [d], x.length ≤ maxDataLen := by
    intro x hx
    rcases List.mem_append.mp hx with hx | hx
    · exact hfit x hx
    · rw [List.mem_singleton.mp hx]
      exact hd
  have hw : writer.write 0 datas ++ frame d = writer.write 0 (datas ++ [d]) := by
    rw [writer.write_append]
    simp [Writer.write, writer, Format.writer, format]
  refine ⟨⟨datas ++ [d], hfit', hw⟩, ?_⟩
  rw [hw, readManifest_write hfit', readManifest_write hfit, replay, List.foldl_append]
  rfl

theorem Clean.torn {file : Bytes} (h : Clean file) {d : Bytes} (hd : d.length ≤ maxDataLen)
    (m : Nat) :
    (readManifest (file ++ (frame d).take m)).1 =
      if (frame d).length ≤ m then applyRecord (readManifest file).1 d
      else (readManifest file).1 := by
  by_cases hm : (frame d).length ≤ m
  · rw [if_pos hm, List.take_of_length_le hm]
    exact (h.append hd).2
  · rw [if_neg hm]
    obtain ⟨datas, hfit, rfl⟩ := h
    have hshort : ∀ off, reader.next off ((frame d).take m) = none := by
      intro off
      have hnext : reader.next off (frame d) = some (d, 8 + d.length) :=
        readFrame_eq_some.mpr ⟨hd, rfl, List.prefix_refl _⟩
      rw [frame_length] at hm
      exact reader.short hnext m (by omega)
    rw [readManifest_levels, readManifest_write hfit, (writer.scan_write 0 hfit _).1,
      reader.records_none (hshort _), List.append_nil]

end Manifest
end AkwaDB
