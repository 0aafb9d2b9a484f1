import Crack.Io.StringWriter
import Crack.Lib.Words
import Mathlib.Algebra.GroupWithZero.Nat

/-!
# Wave files

The header of a wave file has its sizes in it, which are only known when all of the samples have been written.
-/
namespace Crack

def add32BE (buf : List UInt8) (data : UInt32) : List UInt8 :=
  buf ++ [(data >>> 24).toUInt8, (data >>> 16).toUInt8, (data >>> 8).toUInt8, data.toUInt8]

def add32LE (buf : List UInt8) (data : UInt32) : List UInt8 :=
  buf ++ [data.toUInt8, (data >>> 8).toUInt8, (data >>> 16).toUInt8, (data >>> 24).toUInt8]

def add16LE (buf : List UInt8) (data : UInt16) : List UInt8 := buf ++ [data.toUInt8, (data >>> 8).toUInt8]

/-- `p[i]`, which is always in the header. -/
def byteAt (p : List UInt8) (i : Nat) : UInt8 := p.getD i 0

def read32LE (p : List UInt8) : UInt32 :=
  (byteAt p 3).toUInt32 <<< 24 ||| (byteAt p 2).toUInt32 <<< 16 ||| (byteAt p 1).toUInt32 <<< 8 |||
    (byteAt p 0).toUInt32

def read16LE (p : List UInt8) : UInt16 := (byteAt p 1).toUInt16 <<< 8 ||| (byteAt p 0).toUInt16

def read32BE (p : List UInt8) : UInt32 :=
  (byteAt p 0).toUInt32 <<< 24 ||| (byteAt p 1).toUInt32 <<< 16 ||| (byteAt p 2).toUInt32 <<< 8 |||
    (byteAt p 3).toUInt32

/-- `i'RIFF'` -/
def iRIFF : UInt32 := 0x52494646
def iWAVE : UInt32 := 0x57415645
def ifmt : UInt32 := 0x666d7420
def idata : UInt32 := 0x64617461

/-- What a `WaveBuffer` has in its memory, two bytes for each of its samples. -/
structure WaveBuffer where
  size : UInt64
  bytes : List UInt8
  filled : bytes.length = 2 * size.toNat

/-- What `Buffer(byteptr, uint)` has of it, for less than 2 ^ 31 bytes. -/
def WaveBuffer.toBuffer (buf : WaveBuffer) : List UInt8 := buf.bytes.take (buf.size * 2).toUInt32.toNat

structure WaveDef where
  channels : Int32
  rate : Int32
  bitsPerSample : Int32
  frameCount : UInt32
  deriving DecidableEq

namespace WaveDef

def init (channels rate bitsPerSample : Int32) : WaveDef := ⟨channels, rate, bitsPerSample, 0⟩

variable (d : WaveDef)

def header : List UInt8 :=
  let buf := add32BE [] iRIFF
  let buf := add32LE buf 0
  let buf := add32BE buf iWAVE
  let buf := add32BE buf ifmt
  let buf := add32LE buf 16
  let buf := add16LE buf 1
  let buf := add16LE buf d.channels.toUInt32.toUInt16
  let buf := add32LE buf d.rate.toUInt32
  let buf := add32LE buf (d.rate * d.channels * d.bitsPerSample / 8).toUInt32
  let buf := add16LE buf (d.channels * d.bitsPerSample / 8).toUInt32.toUInt16
  let buf := add16LE buf d.bitsPerSample.toUInt32.toUInt16
  let buf := add32BE buf idata
  add32LE buf 0

def writeHeader (out : File) : File := out.write d.header

/-- Nothing comes back from a division by zero. -/
def writeData (out : File) (buf : WaveBuffer) : Option (WaveDef × File) :=
  if d.channels = 0 then none
  else
    let frames := buf.size / d.channels.toUInt32.toUInt64
    some ({ d with frameCount := d.frameCount + frames.toUInt32 }, out.write buf.toBuffer)

def finish (out : File) : File :=
  let size := d.frameCount * d.channels.toUInt32 * d.bitsPerSample.toUInt32 / 8
  let out := (out.seek 40 .seekSet).write (add32LE [] size)
  (out.seek 4 .seekSet).write (add32LE [] (size + 36))

/-- The calls of `writeData`, with `finish` behind them. -/
def writeAll (d : WaveDef) (out : File) : List WaveBuffer → Option File
  | [] => some (d.finish out)
  | buf :: bufs => do
    let (d, out) ← d.writeData out buf
    writeAll d out bufs

end WaveDef

/-- A whole file of 16 bit samples. -/
def recordWave (channels rate : Int32) (bufs : List WaveBuffer) : Option File :=
  let d := WaveDef.init channels rate 16
  d.writeAll (d.writeHeader .empty) bufs

/-- What is returned, or the text of a `FormatError`. -/
def readWave (src : List UInt8) : Option (Except String WaveDef) :=
  let header := src.take 44
  if header.length ≠ 44 then some (.error "File is not even big enough to be a wave file.")
  else if read32BE header ≠ iRIFF then some (.error "Not a RIFF file")
  else if read32BE (header.drop 8) ≠ iWAVE then some (.error "Not a WAVE chunk")
  else if read32BE (header.drop 12) ≠ ifmt then some (.error "Not a \"fmt\" block")
  else
    let size := read32LE (header.drop 16)
    if size ≠ 16 then some (.error ("Expected 16 byte format chunk, got " ++ toString size))
    else
      let fmt := read16LE (header.drop 20)
      if fmt ≠ 1 then some (.error "Chunk is not PCM format.")
      else
        let channels := read16LE (header.drop 22)
        let rate := read32LE (header.drop 24)
        let byteRate := read32LE (header.drop 28)
        let blockAlign := read16LE (header.drop 32)
        let bitsPerSample := read16LE (header.drop 34)
        let dataSize := read32LE (header.drop 40)
        let rightRate := rate * channels.toUInt32 * bitsPerSample.toUInt32 / 8
        let rightAlign := channels * bitsPerSample / 8
        if byteRate ≠ rightRate then
          some (.error ("Expected a byte rate of " ++ toString rightRate ++ ", got " ++ toString byteRate))
        else if blockAlign ≠ rightAlign then
          some (.error ("Expected a block alignment of " ++ toString rightAlign ++ ", got " ++ toString blockAlign))
        else if rightAlign = 0 then none
        else some (.ok ⟨channels.toUInt32.toInt32, rate.toInt32, bitsPerSample.toUInt32.toInt32,
          dataSize / rightAlign.toUInt32⟩)

def samples (bufs : List WaveBuffer) : Nat := (bufs.map fun buf => buf.size.toNat).sum

theorem samples_cons (buf : WaveBuffer) (bufs : List WaveBuffer) :
    samples (buf :: bufs) = buf.size.toNat + samples bufs := rfl

/-- The sizes in the file are right, and what is read is what has been written. -/
def Recorded (channels rate : Int32) (bufs : List WaveBuffer) : Prop :=
  ∃ file, recordWave channels rate bufs = some file ∧
    let written := (bufs.flatMap fun buf => buf.bytes).length
    (read32LE (file.contents.drop 40)).toNat = written ∧ (read32LE (file.contents.drop 4)).toNat = written + 36 ∧
    ∃ d, readWave file.contents = some (.ok d) ∧ d.channels = channels ∧ d.rate = rate ∧ d.bitsPerSample = 16 ∧
      (d.frameCount.toNat : Int) = samples bufs / channels.toInt

/-- No buffer ends within a frame, the bits of all samples are counted by a `uint`, and those of a second by an
`int`. The bits of a frame are counted by a `uint16`, or the reader takes it for a shorter one that nothing is in. -/
structure Recordable (channels rate : Int32) (bufs : List WaveBuffer) : Prop where
  whole : ∀ buf ∈ bufs, channels.toInt ∣ buf.size.toNat
  few : 16 * samples bufs < 2 ^ 32
  rate : 0 ≤ rate * channels * 16
  narrow : channels.toInt < 4096 ∨ samples bufs = 0 ∧ 32768 < channels.toInt ∧ channels.toInt < 36864

theorem read32LE_add32LE (x : UInt32) (rest : List UInt8) : read32LE (add32LE [] x ++ rest) = x := Words.word32_bytes x

theorem read16LE_add16LE (x : UInt16) (rest : List UInt8) : read16LE (add16LE [] x ++ rest) = x := Words.word16_bytes x

theorem read32BE_add32BE (x : UInt32) (rest : List UInt8) : read32BE (add32BE [] x ++ rest) = x := Words.word32_bytes x

/-- What is between the two sizes. -/
def formatBytes (channels : UInt16) (rate byteRate : UInt32) (blockAlign bitsPerSample : UInt16) : List UInt8 :=
  add32BE (add16LE (add16LE (add32LE (add32LE (add16LE (add16LE (add32LE (add32BE (add32BE [] iWAVE) ifmt) 16) 1)
    channels) rate) byteRate) blockAlign) bitsPerSample) idata

def headerBytes (riffSize : UInt32) (format : List UInt8) (dataSize : UInt32) : List UInt8 :=
  add32LE (add32BE [] iRIFF) riffSize ++ (format ++ add32LE [] dataSize)

def WaveDef.format (d : WaveDef) : List UInt8 :=
  formatBytes d.channels.toUInt32.toUInt16 d.rate.toUInt32 (d.rate * d.channels * d.bitsPerSample / 8).toUInt32
    (d.channels * d.bitsPerSample / 8).toUInt32.toUInt16 d.bitsPerSample.toUInt32.toUInt16

theorem header_eq (d : WaveDef) : d.header = headerBytes 0 d.format 0 := rfl

theorem length_format (d : WaveDef) : d.format.length = 32 := rfl

theorem length_headerBytes {riffSize dataSize : UInt32} {format : List UInt8} (h : format.length = 32) :
    (headerBytes riffSize format dataSize).length = 44 := by
  rw [headerBytes, List.length_append, List.length_append, h]
  rfl

section

variable (riffSize dataSize byteRate rate : UInt32) (channels blockAlign bitsPerSample : UInt16) (data : List UInt8)

/-- What becomes of a file with any sizes in it. -/
theorem readWave_eq :
    readWave (headerBytes riffSize (formatBytes channels rate byteRate blockAlign bitsPerSample) dataSize ++ data) =
      if byteRate ≠ rate * channels.toUInt32 * bitsPerSample.toUInt32 / 8 then
        some (.error ("Expected a byte rate of " ++ toString (rate * channels.toUInt32 * bitsPerSample.toUInt32 / 8) ++
          ", got " ++ toString byteRate))
      else if blockAlign ≠ channels * bitsPerSample / 8 then
        some (.error ("Expected a block alignment of " ++ toString (channels * bitsPerSample / 8) ++ ", got " ++
          toString blockAlign))
      else if channels * bitsPerSample / 8 = 0 then none
      else some (.ok ⟨channels.toUInt32.toInt32, rate.toInt32, bitsPerSample.toUInt32.toInt32,
        dataSize / (channels * bitsPerSample / 8).toUInt32⟩) := by
  generalize hheader : headerBytes riffSize (formatBytes channels rate byteRate blockAlign bitsPerSample) dataSize =
    header
  have hlength : header.length = 44 := by rw [← hheader]; exact length_headerBytes rfl
  have hRIFF : read32BE header = iRIFF := hheader ▸ read32BE_add32BE iRIFF _
  have hWAVE : read32BE (header.drop 8) = iWAVE := hheader ▸ read32BE_add32BE iWAVE _
  have hfmt : read32BE (header.drop 12) = ifmt := hheader ▸ read32BE_add32BE ifmt _
  have hsize : read32LE (header.drop 16) = 16 := hheader ▸ read32LE_add32LE 16 _
  have hPCM : read16LE (header.drop 20) = 1 := hheader ▸ read16LE_add16LE 1 _
  have hchannels : read16LE (header.drop 22) = channels := hheader ▸ read16LE_add16LE channels _
  have hrate : read32LE (header.drop 24) = rate := hheader ▸ read32LE_add32LE rate _
  have hbyteRate : read32LE (header.drop 28) = byteRate := hheader ▸ read32LE_add32LE byteRate _
  have hblockAlign : read16LE (header.drop 32) = blockAlign := hheader ▸ read16LE_add16LE blockAlign _
  have hbits : read16LE (header.drop 34) = bitsPerSample := hheader ▸ read16LE_add16LE bitsPerSample _
  have hdata : read32LE (header.drop 40) = dataSize := hheader ▸ read32LE_add32LE dataSize []
  have htake : (header ++ data).take 44 = header := List.take_left' hlength
  rw [readWave, htake]
  simp only [hlength, hRIFF, hWAVE, hfmt, hsize, hPCM, hchannels, hrate, hbyteRate, hblockAlign, hbits, hdata, ne_eq,
    not_true_eq_false, if_false]

end

theorem File.write_end {f : File} (h : f.pos = f.contents.length) (data : List UInt8) :
    (f.write data).contents = f.contents ++ data ∧ (f.write data).pos = (f.write data).contents.length := by
  have hcontents : (f.write data).contents = f.contents ++ data := by
    change Overwriting.write f.contents f.pos data = _
    rw [h, Overwriting.write, List.take_length, List.drop_of_length_le (Nat.le_add_right _ _), List.append_nil]
  refine ⟨hcontents, ?_⟩
  rw [hcontents, List.length_append, ← h]
  rfl

/-- A write at a place behind the first part. -/
theorem File.write_at {f : File} {A old data B : List UInt8} (h : f.contents = A ++ old ++ B)
    (hlen : old.length = data.length) (place : Nat) (hplace : A.length = place) :
    ((f.seek place .seekSet).write data).contents = A ++ data ++ B := by
  have hpos : (f.seek place .seekSet).pos = A.length := by
    have hle : A.length ≤ f.contents.length := by
      rw [h, List.length_append, List.length_append]
      omega
    change (max 0 (min ((0 : Nat) + (place : Int)) (f.contents.length : Int))).toNat = _
    omega
  change Overwriting.write f.contents (f.seek place .seekSet).pos data = _
  have hdrop : (A ++ old ++ B).drop (A.length + data.length) = B :=
    List.drop_left' (by rw [List.length_append, hlen])
  rw [hpos, h, Overwriting.write, hdrop, List.append_assoc A old B, List.take_left]

namespace WaveDef

variable {d : WaveDef} {out : File}

theorem finish_ok {format data : List UInt8} (hformat : format.length = 32)
    (h : out.contents = headerBytes 0 format 0 ++ data) :
    let size := d.frameCount * d.channels.toUInt32 * d.bitsPerSample.toUInt32 / 8
    (d.finish out).contents = headerBytes (size + 36) format size ++ data := by
  intro size
  have hdata := @File.write_at out (add32LE (add32BE [] iRIFF) 0 ++ format) (add32LE [] 0)
    (add32LE [] size) data (by rw [h, headerBytes, List.append_assoc _ format]) rfl 40
    (by rw [List.length_append, hformat]; rfl)
  have hriff := @File.write_at _ (add32BE [] iRIFF) (add32LE [] 0) (add32LE [] (size + 36))
    (format ++ add32LE [] size ++ data) (by rw [hdata, List.append_assoc _ format, List.append_assoc]; rfl)
    rfl 4 rfl
  change ((((out.seek (40 : Nat) .seekSet).write (add32LE [] size)).seek (4 : Nat) .seekSet).write
    (add32LE [] (size + 36))).contents = _
  rw [hriff, headerBytes, List.append_assoc _ (format ++ _)]
  rfl

/-- The frames that are counted. -/
def frames (channels : Nat) (bufs : List WaveBuffer) : Nat := (bufs.map fun buf => buf.size.toNat / channels).sum

theorem frames_cons (channels : Nat) (buf : WaveBuffer) (bufs : List WaveBuffer) :
    frames channels (buf :: bufs) = buf.size.toNat / channels + frames channels bufs := rfl

theorem writeAll_ok {bufs : List WaveBuffer} (hpos : d.channels ≠ 0) (hout : out.pos = out.contents.length) :
    ∃ (frameCount : UInt32) (out' : File), d.writeAll out bufs = some ({ d with frameCount }.finish out') ∧
      frameCount.toNat = (d.frameCount.toNat + frames d.channels.toUInt32.toNat bufs) % 2 ^ 32 ∧
      out'.contents = out.contents ++ bufs.flatMap WaveBuffer.toBuffer := by
  induction bufs generalizing d out with
  | nil =>
    refine ⟨d.frameCount, out, rfl, ?_, (List.append_nil _).symm⟩
    exact (Nat.mod_eq_of_lt d.frameCount.toNat_lt).symm
  | cons buf bufs ih =>
    obtain ⟨hcontents, hend⟩ := File.write_end hout buf.toBuffer
    obtain ⟨frameCount, out', hall, hcount, hout'⟩ := ih
      (d := { d with frameCount := d.frameCount + (buf.size / d.channels.toUInt32.toUInt64).toUInt32 }) hpos hend
    refine ⟨frameCount, out', ?_, ?_, ?_⟩
    · rw [writeAll, writeData, if_neg hpos]
      exact hall
    · rw [hcount, frames_cons]
      dsimp only
      rw [UInt32.toNat_add, UInt64.toNat_toUInt32, UInt64.toNat_div, UInt32.toNat_toUInt64]
      omega
    · rw [hout', hcontents, List.flatMap_cons, List.append_assoc]

end WaveDef

/-- The whole file. -/
theorem recordWave_ok {channels rate : Int32} {bufs : List WaveBuffer} (hpos : channels ≠ 0) :
    ∃ (size : UInt32) (file : File), recordWave channels rate bufs = some file ∧
      size.toNat = WaveDef.frames channels.toUInt32.toNat bufs * channels.toUInt32.toNat * 16 % 2 ^ 32 / 8 ∧
      file.contents = headerBytes (size + 36) (WaveDef.init channels rate 16).format size ++
        bufs.flatMap WaveBuffer.toBuffer := by
  generalize hd : WaveDef.init channels rate 16 = d
  have hchannels : d.channels = channels := by rw [← hd]; rfl
  have hbits : d.bitsPerSample = 16 := by rw [← hd]; rfl
  have hcount : d.frameCount.toNat = 0 := by rw [← hd]; rfl
  have hend := File.write_end (f := .empty) rfl d.header
  obtain ⟨frameCount, out, hall, hframes, hout⟩ :=
    WaveDef.writeAll_ok (d := d) (hchannels.symm ▸ hpos) hend.2
  rw [hend.1, header_eq] at hout
  refine ⟨frameCount * d.channels.toUInt32 * d.bitsPerSample.toUInt32 / 8, _, ?_, ?_,
    WaveDef.finish_ok (d := { d with frameCount }) (length_format d) hout⟩
  · rw [recordWave, hd]
    exact hall
  · rw [UInt32.toNat_div, UInt32.toNat_mul, UInt32.toNat_mul, hframes, hcount, hchannels, hbits, Nat.zero_add]
    change _ % 2 ^ 32 * 16 % 2 ^ 32 / 8 = _
    rw [Nat.mod_mul_mod, Nat.mul_assoc, Nat.mod_mul_mod, Nat.mul_assoc]

theorem toInt_eq (x : Int32) :
    x.toInt = if 2 * x.toUInt32.toNat < 2 ^ 32 then (x.toUInt32.toNat : Int) else x.toUInt32.toNat - (2 ^ 32 : Nat) :=
  BitVec.toInt_eq_toNat_cond x.toBitVec

/-- A negative number divided by 8 is not what its bits are if divided by 8. -/
theorem div_eight_iff (x : Int32) : (x / 8).toUInt32 = x.toUInt32 / 8 ↔ 0 ≤ x := by
  have hx := toInt_eq x
  have hquot := toInt_eq (x / 8)
  have hlt := x.toUInt32.toNat_lt
  have hlt' := (x / 8).toUInt32.toNat_lt
  rw [Int32.toInt_div] at hquot
  change (x.toInt.tdiv 8).bmod (2 ^ 32) = _ at hquot
  rw [← UInt32.toNat_inj, UInt32.toNat_div, Int32.le_iff_toInt_le]
  change _ = x.toUInt32.toNat / 8 ↔ 0 ≤ x.toInt
  rw [Int.bmod_def] at hquot
  by_cases hpos : 0 ≤ x.toInt
  · rw [Int.tdiv_eq_ediv_of_nonneg hpos] at hquot
    omega
  · obtain ⟨k, hk⟩ : ∃ k : Nat, x.toInt = -k := ⟨x.toInt.natAbs, by omega⟩
    rw [hk, Int.neg_tdiv, Int.tdiv_eq_ediv_of_nonneg (Int.natCast_nonneg k)] at hquot
    omega

/-- A frame of `c` samples has the right number of bytes in the header, and it is not read as an empty one. -/
theorem align_iff {c : Nat} (hpos : 0 < c) (hc : c < 2 ^ 16) :
    2 * c % 2 ^ 16 = c * 16 % 2 ^ 16 / 8 ∧ c * 16 % 2 ^ 16 / 8 ≠ 0 ↔ c < 4096 ∨ 32768 < c ∧ c < 36864 := by
  omega

theorem frames_le (c : Nat) (bufs : List WaveBuffer) : WaveDef.frames c bufs * c ≤ samples bufs := by
  induction bufs with
  | nil => exact Nat.le_of_eq (Nat.zero_mul c)
  | cons buf bufs ih =>
    have hbuf := Nat.div_mul_le_self buf.size.toNat c
    rw [WaveDef.frames_cons, samples_cons, Nat.add_mul]
    exact Nat.add_le_add hbuf ih

theorem frames_eq_iff (c : Nat) (bufs : List WaveBuffer) :
    WaveDef.frames c bufs * c = samples bufs ↔ ∀ buf ∈ bufs, c ∣ buf.size.toNat := by
  induction bufs with
  | nil => exact iff_of_true (Nat.zero_mul c) fun buf hbuf => absurd hbuf List.not_mem_nil
  | cons buf bufs ih =>
    have hbuf := Nat.div_mul_le_self buf.size.toNat c
    have hrest := frames_le c bufs
    rw [List.forall_mem_cons, ← ih, WaveDef.frames_cons, samples_cons, Nat.add_mul]
    constructor
    · intro heq
      have hboth : buf.size.toNat / c * c = buf.size.toNat ∧ WaveDef.frames c bufs * c = samples bufs := by omega
      exact ⟨Nat.dvd_of_mod_eq_zero (by have := Nat.div_add_mod' buf.size.toNat c; omega), hboth.2⟩
    · rintro ⟨hdvd, heq⟩
      rw [Nat.div_mul_cancel hdvd, heq]

theorem length_samples (bufs : List WaveBuffer) : (bufs.flatMap fun buf => buf.bytes).length = 2 * samples bufs := by
  induction bufs with
  | nil => rfl
  | cons buf bufs ih =>
    rw [List.flatMap_cons, List.length_append, ih, buf.filled, samples_cons, Nat.mul_add]

/-- The size in the file counts the bytes as long as no buffer ends within a frame and the bits fit into a `uint`. -/
theorem size_iff (c : Nat) (bufs : List WaveBuffer) :
    WaveDef.frames c bufs * c * 16 % 2 ^ 32 / 8 = 2 * samples bufs ↔
      (∀ buf ∈ bufs, c ∣ buf.size.toNat) ∧ 16 * samples bufs < 2 ^ 32 := by
  have hle := frames_le c bufs
  rw [← frames_eq_iff]
  generalize WaveDef.frames c bufs * c = counted at hle
  omega

/-- A narrow frame is counted; a wide one that passes for a shorter one is not, unless there is none. -/
theorem count_iff {c n : Nat} (hpos : 0 < c) (hc : c < 2 ^ 16) (hdvd : c ∣ n) :
    (2 * c % 2 ^ 16 = c * 16 % 2 ^ 16 / 8 ∧ c * 16 % 2 ^ 16 / 8 ≠ 0) ∧ 2 * n / (c * 16 % 2 ^ 16 / 8) = n / c ↔
      c < 4096 ∨ n = 0 ∧ 32768 < c ∧ c < 36864 := by
  rw [align_iff hpos hc]
  constructor
  · rintro ⟨hnarrow | ⟨hlow, hhigh⟩, hcount⟩
    · exact .inl hnarrow
    · obtain ⟨k, rfl⟩ := hdvd
      have hframe : c * 16 % 2 ^ 16 / 8 = 2 * (c - 32768) := by omega
      rw [hframe, Nat.mul_div_mul_left _ _ Nat.two_pos, Nat.mul_div_cancel_left k hpos] at hcount
      have hmany : 9 * k ≤ c * k / (c - 32768) := by
        rw [Nat.le_div_iff_mul_le (by omega)]
        calc 9 * k * (c - 32768) = 9 * (c - 32768) * k := Nat.mul_right_comm 9 k _
          _ ≤ c * k := Nat.mul_le_mul_right k (by omega)
      have hzero : k = 0 := by omega
      exact .inr ⟨by rw [hzero, Nat.mul_zero], hlow, hhigh⟩
  · rintro (hnarrow | ⟨rfl, hwide⟩)
    · have hframe : c * 16 % 2 ^ 16 / 8 = 2 * c := by omega
      exact ⟨.inl hnarrow, by rw [hframe, Nat.mul_div_mul_left _ _ Nat.two_pos]⟩
    · exact ⟨.inr hwide, by rw [Nat.mul_zero, Nat.zero_div, Nat.zero_div]⟩

section

variable {channels rate : Int32} {bufs : List WaveBuffer} {c : Nat}

/-- What a definition is read back from. -/
theorem readWave_ok_iff {size : UInt32} {data : List UInt8} (hc : channels.toUInt32.toNat = c) (hlt : c < 2 ^ 31)
    (hpos : 0 < c) :
    (∃ d, readWave (headerBytes (size + 36) (WaveDef.init channels rate 16).format size ++ data) = some (.ok d) ∧
        d.channels = channels ∧ d.rate = rate ∧ d.bitsPerSample = 16 ∧
        (d.frameCount.toNat : Int) = samples bufs / channels.toInt) ↔
      c < 2 ^ 16 ∧ 0 ≤ rate * channels * 16 ∧
        (2 * c % 2 ^ 16 = c * 16 % 2 ^ 16 / 8 ∧ c * 16 % 2 ^ 16 / 8 ≠ 0) ∧
        size.toNat / (c * 16 % 2 ^ 16 / 8) = samples bufs / c := by
  have hint : channels.toInt = c := by
    rw [toInt_eq, hc, if_pos (by omega)]
  have hnarrow : channels.toUInt32.toUInt16.toNat = c % 2 ^ 16 := by rw [UInt32.toNat_toUInt16, hc]
  have hback : channels.toUInt32.toUInt16.toUInt32.toInt32.toUInt32.toNat = c % 2 ^ 16 := by
    change channels.toUInt32.toUInt16.toUInt32.toNat = _
    rw [UInt16.toNat_toUInt32, hnarrow]
  have hsame : channels.toUInt32.toUInt16.toUInt32.toInt32 = channels ↔ c < 2 ^ 16 := by
    rw [← Int32.toInt_inj, toInt_eq, hint, hback]
    omega
  have hframe : (channels.toUInt32.toUInt16 * 16 / 8).toNat = c % 2 ^ 16 * 16 % 2 ^ 16 / 8 := by
    rw [UInt16.toNat_div, UInt16.toNat_mul, hnarrow]
    rfl
  have hformat : (WaveDef.init channels rate 16).format = formatBytes channels.toUInt32.toUInt16 rate.toUInt32
      (rate * channels * 16 / 8).toUInt32 (channels * 16 / 8).toUInt32.toUInt16 16 := rfl
  rw [hformat, readWave_eq]
  by_cases hc16 : c < 2 ^ 16
  · rw [Nat.mod_eq_of_lt hc16] at hframe
    have hwide : channels.toUInt32.toUInt16.toUInt32 = channels.toUInt32 := by
      rw [← UInt32.toNat_inj, UInt16.toNat_toUInt32, hnarrow, hc, Nat.mod_eq_of_lt hc16]
    have hrate : (rate * channels * 16 / 8).toUInt32 =
        rate.toUInt32 * channels.toUInt32 * (16 : UInt16).toUInt32 / 8 ↔ 0 ≤ rate * channels * 16 := div_eight_iff _
    have hbytes : (channels * 16 / 8).toUInt32.toNat = 2 * c := by
      have hbitCount : (channels * 16).toUInt32.toNat = c * 16 := by
        change channels.toUInt32.toNat * 16 % 2 ^ 32 = _
        rw [hc]
        omega
      have hnonneg : 0 ≤ channels * 16 := by
        rw [Int32.le_iff_toInt_le, toInt_eq (channels * 16), hbitCount, if_pos (by omega)]
        exact Int.natCast_nonneg _
      rw [(div_eight_iff _).mpr hnonneg, UInt32.toNat_div, hbitCount]
      change c * 16 / 8 = _
      omega
    have halign : (channels * 16 / 8).toUInt32.toUInt16 = channels.toUInt32.toUInt16 * 16 / 8 ↔
        2 * c % 2 ^ 16 = c * 16 % 2 ^ 16 / 8 := by
      rw [← UInt16.toNat_inj, UInt32.toNat_toUInt16, hbytes, hframe]
    have hzero : channels.toUInt32.toUInt16 * 16 / 8 = 0 ↔ c * 16 % 2 ^ 16 / 8 = 0 := by
      rw [← UInt16.toNat_inj, hframe]
      rfl
    rw [hwide]
    have hquot : (size / (channels.toUInt32.toUInt16 * 16 / 8).toUInt32).toNat = size.toNat / (c * 16 % 2 ^ 16 / 8) := by
      rw [UInt32.toNat_div, UInt16.toNat_toUInt32, hframe]
    constructor
    · rintro ⟨d, hread, -, -, -, hcount⟩
      split at hread
      next => cases hread
      next hrate' =>
        split at hread
        next => cases hread
        next halign' =>
          split at hread
          next => cases hread
          next hzero' =>
            cases hread
            rw [hint] at hcount
            refine ⟨hc16, hrate.mp (not_not.mp hrate'), ⟨halign.mp (not_not.mp halign'), mt hzero.mpr hzero'⟩, ?_⟩
            rw [← hquot]
            exact_mod_cast hcount
    · rintro ⟨-, hrate', ⟨halign', hzero'⟩, hcount⟩
      refine ⟨⟨channels, rate, 16, size / (channels.toUInt32.toUInt16 * 16 / 8).toUInt32⟩, ?_, rfl, rfl, rfl, ?_⟩
      · rw [if_neg (not_not_intro (hrate.mpr hrate')), if_neg (not_not_intro (halign.mpr halign')),
          if_neg (mt hzero.mp hzero')]
        rfl
      · rw [hint]
        dsimp only
        rw [hquot, hcount]
        exact Int.natCast_ediv _ _
  · refine iff_of_false ?_ fun h => hc16 h.1
    rintro ⟨d, hread, hchannels, -⟩
    split at hread
    next => cases hread
    next =>
      split at hread
      next => cases hread
      next =>
        split at hread
        next => cases hread
        next =>
          cases hread
          exact hc16 (hsame.mp hchannels)

end

/-- With a channel or more, the file tells what has been written just if it is recordable. -/
theorem recorded_iff {channels rate : Int32} (hpos : 1 ≤ channels) (bufs : List WaveBuffer) :
    Recorded channels rate bufs ↔ Recordable channels rate bufs := by
  obtain ⟨c, hc, hc0, hlt, hint⟩ : ∃ c, channels.toUInt32.toNat = c ∧ 0 < c ∧ c < 2 ^ 31 ∧ channels.toInt = c := by
    have hint := toInt_eq channels
    have hone : (1 : Int) ≤ channels.toInt := Int32.le_iff_toInt_le.mp hpos
    have hlt := channels.toUInt32.toNat_lt
    refine ⟨_, rfl, ?_⟩
    omega
  have hne : channels ≠ 0 := by
    rintro rfl
    exact absurd hpos (by decide)
  obtain ⟨size, file, hfile, hsize, hcontents⟩ := recordWave_ok hne
  rw [hc] at hsize
  have hdata : read32LE (file.contents.drop 40) = size := by
    rw [hcontents]
    exact read32LE_add32LE size _
  have hriff : read32LE (file.contents.drop 4) = size + 36 := by
    rw [hcontents]
    exact read32LE_add32LE (size + 36) _
  have hsum : (size + 36).toNat = size.toNat + 36 := by
    rw [UInt32.toNat_add, hsize]
    change (_ + 36) % 2 ^ 32 = _
    omega
  have hread := @readWave_ok_iff _ rate bufs _ size (bufs.flatMap WaveBuffer.toBuffer) hc hlt hc0
  rw [← hcontents] at hread
  have hdvd : (∀ buf ∈ bufs, channels.toInt ∣ buf.size.toNat) ↔ ∀ buf ∈ bufs, c ∣ buf.size.toNat := by
    rw [hint]
    simp only [Int.natCast_dvd_natCast]
  have hwidth : (channels.toInt < 4096 ∨ samples bufs = 0 ∧ 32768 < channels.toInt ∧ channels.toInt < 36864) ↔
      (c < 4096 ∨ samples bufs = 0 ∧ 32768 < c ∧ c < 36864) := by
    rw [hint]
    omega
  have hsamples : (∀ buf ∈ bufs, c ∣ buf.size.toNat) → c ∣ samples bufs := fun hwhole =>
    ⟨WaveDef.frames c bufs, by rw [Nat.mul_comm]; exact ((frames_eq_iff c bufs).mpr hwhole).symm⟩
  constructor
  · rintro ⟨file', hfile', hbytes, -, hdef⟩
    cases hfile.symm.trans hfile'
    rw [hdata, length_samples] at hbytes
    obtain ⟨hwhole, hfew⟩ := (size_iff c bufs).mp (hsize.symm.trans hbytes)
    obtain ⟨hc16, hrate, halign, hcount⟩ := hread.mp hdef
    rw [hbytes] at hcount
    refine ⟨hdvd.mpr hwhole, hfew, hrate, ?_⟩
    exact hwidth.mpr ((count_iff hc0 hc16 (hsamples hwhole)).mp ⟨halign, hcount⟩)
  · rintro ⟨hwhole, hfew, hrate, hnarrow⟩
    rw [hdvd] at hwhole
    rw [hwidth] at hnarrow
    have hc16 : c < 2 ^ 16 := by omega
    have hbytes : size.toNat = 2 * samples bufs := hsize.trans ((size_iff c bufs).mpr ⟨hwhole, hfew⟩)
    obtain ⟨halign, hcount⟩ := (count_iff hc0 hc16 (hsamples hwhole)).mpr hnarrow
    refine ⟨file, hfile, ?_, ?_, hread.mpr ⟨hc16, hrate, halign, hbytes.symm ▸ hcount⟩⟩
    · rw [hdata, hbytes, length_samples]
    · rw [hriff, hsum, hbytes, length_samples]

/-- A buffer of one sample. -/
def oneSample : WaveBuffer := ⟨1, [1, 0], rfl⟩

def twoSamples : WaveBuffer := ⟨2, [1, 0, 2, 0], rfl⟩

theorem stereo_recorded : Recorded 2 44100 [twoSamples, twoSamples] :=
  (recorded_iff (by decide) _).mpr ⟨by decide, by decide, by decide, .inl (by decide)⟩

/-- Two halves of a frame are none. -/
theorem half_frames_lost : ¬∀ (channels rate : Int32) (bufs : List WaveBuffer), 1 ≤ channels →
    Recorded channels rate bufs := by
  intro hall
  obtain ⟨file, hfile, hbytes, -⟩ := hall 2 44100 [oneSample, oneSample] (by decide)
  cases hfile
  exact absurd hbytes (by decide)

end Crack
