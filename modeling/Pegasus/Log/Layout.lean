/-
What replaying a file yields (`Pegasus.Log.Layout`).

A `FileImage` says what the bytes of a file are: its header, the blocks that were committed to it
and, after a crash, a part of one more block. The writer only ever makes such files, and a
replay reads back the mutations of the blocks, in order, and ends where the last whole block
ends.

- `FileImage.replay_file`: the replay of one file;
- `replayLogs_images`: the replay of the files of a log, whose offsets and indices follow each
  other;
- `FileImage.cut_blocks`: a file that is cut after its header is the image of the blocks that
  lie wholly before the cut.
-/

import Pegasus.Log.PrivateLog

namespace Pegasus.Log

open List Option DiskFile

/-! ### Blocks with mutations -/

/-- The mutations carry the offsets at which they lie, one after the other. -/
def PlacedFrom (codes : TaskCodes) : Int → List MutationData → Prop
  | _, [] => True
  | offset, mu :: rest =>
    mu.header.logOffset = Int64.ofInt offset ∧
      PlacedFrom codes (offset + (mu.bytes codes).length) rest

structure LogBlock.Sound (codes : TaskCodes) (block : LogBlock) : Prop where
  blobs_eq : block.blobs = block.mutations.flatMap (MutationData.writeTo codes)
  placed : PlacedFrom codes (block.startOffset + blockHeaderSize) block.mutations
  registered : ∀ mu ∈ block.mutations, ∀ update ∈ mu.updates, codes.Registered update.code
  short : block.body.length < 2 ^ 31

def BlocksFrom (codes : TaskCodes) : Int → List LogBlock → Prop
  | _, [] => True
  | offset, block :: rest =>
    block.startOffset = offset ∧ block.Sound codes ∧ BlocksFrom codes (offset + block.size) rest

def blocksSize (blocks : List LogBlock) : Nat := (blocks.map LogBlock.size).sum

/-- ByteString at the end of a file that are only a part of a block, or nothing. -/
def Torn (fileStart : Int) (crc : UInt32) (torn : ByteString) : Prop :=
  ∃ block : LogBlock, block.body.length < 2 ^ 31 ∧ torn <+: block.bytes fileStart crc ∧
    torn.length < (block.bytes fileStart crc).length

section Blocks

variable {codes : TaskCodes} {fileStart offset : Int} {crc : UInt32} {block : LogBlock}
  {blocks more : List LogBlock}

@[simp] theorem blocksSize_nil : blocksSize [] = 0 := rfl

@[simp] theorem blocksSize_cons : blocksSize (block :: blocks) = block.size + blocksSize blocks :=
  sum_cons

@[simp] theorem blocksSize_append :
    blocksSize (blocks ++ more) = blocksSize blocks + blocksSize more := by
  simp [blocksSize]

theorem blocksFrom_append : BlocksFrom codes offset (blocks ++ more) ↔
    BlocksFrom codes offset blocks ∧ BlocksFrom codes (offset + blocksSize blocks) more := by
  induction blocks generalizing offset with
  | nil => simp [BlocksFrom]
  | cons block rest ih =>
    simp only [cons_append, BlocksFrom, ih, blocksSize_cons, Nat.cast_add, and_assoc, add_assoc]

theorem BlocksFrom.sound (hblocks : BlocksFrom codes offset blocks) (hblock : block ∈ blocks) :
    block.Sound codes := by
  induction blocks generalizing offset with
  | nil => simp at hblock
  | cons first rest ih =>
    rcases mem_cons.mp hblock with rfl | hblock
    · exact hblocks.2.1
    · exact ih hblocks.2.2 hblock

theorem BlocksFrom.extent (hblocks : BlocksFrom codes offset blocks) (hblock : block ∈ blocks) :
    offset ≤ block.startOffset ∧
      block.startOffset + block.size ≤ offset + (blocksSize blocks : Int) := by
  induction blocks generalizing offset with
  | nil => simp at hblock
  | cons first rest ih =>
    obtain ⟨hstart, -, hrest⟩ := hblocks
    rw [blocksSize_cons, Nat.cast_add]
    rcases mem_cons.mp hblock with rfl | hblock
    · omega
    · have := ih hrest hblock
      omega

theorem placedFrom_append {mutations added : List MutationData} :
    PlacedFrom codes offset (mutations ++ added) ↔ PlacedFrom codes offset mutations ∧
      PlacedFrom codes (offset + (mutations.flatMap (MutationData.bytes codes)).length) added := by
  induction mutations generalizing offset with
  | nil => simp [PlacedFrom]
  | cons mu rest ih =>
    simp only [cons_append, PlacedFrom, ih, flatMap_cons, length_append,
      Nat.cast_add, and_assoc, add_assoc]

theorem commitLogBlocks_append : commitLogBlocks fileStart crc (blocks ++ more) =
    ((commitLogBlocks fileStart crc blocks).1 ++
        (commitLogBlocks fileStart (commitLogBlocks fileStart crc blocks).2 more).1,
      (commitLogBlocks fileStart (commitLogBlocks fileStart crc blocks).2 more).2) := by
  induction blocks generalizing crc with
  | nil => rfl
  | cons block rest ih => simp only [cons_append, commitLogBlocks, ih, append_assoc]

@[simp] theorem length_commitLogBlocks :
    (commitLogBlocks fileStart crc blocks).1.length = blocksSize blocks := by
  induction blocks generalizing crc with
  | nil => rfl
  | cons block rest ih =>
    simp only [commitLogBlocks, length_append, LogBlock.length_bytes, ih, blocksSize_cons]

theorem torn_nil (fileStart : Int) (crc : UInt32) : Torn fileStart crc [] := by
  refine ⟨{ startOffset := 0 }, by simp [LogBlock.body], nil_prefix, ?_⟩
  rw [LogBlock.length_bytes, LogBlock.size_eq]
  simp [blockHeaderSize]

theorem Torn.readNextLogBlock {buffered : Nat} {torn : ByteString}
    (htorn : Torn fileStart crc torn) :
    readNextLogBlock buffered crc torn =
      some (.error (if torn = [] then .handleEof else .incompleteData)) := by
  obtain ⟨block, hshort, hpre, hcut⟩ := htorn
  exact readNextLogBlock_torn hshort hpre hcut

variable (sound : block.Sound codes)
include sound

theorem LogBlock.Sound.body_eq :
    block.body = block.mutations.flatMap (MutationData.bytes codes) := by
  rw [LogBlock.body, sound.blobs_eq]
  induction block.mutations with
  | nil => rfl
  | cons mu rest ih => simp only [flatMap_cons, flatten_append, ih, MutationData.bytes]

theorem LogBlock.Sound.storable {mu : MutationData} (hmu : mu ∈ block.mutations) :
    mu.Storable codes := by
  refine ⟨sound.registered mu hmu, lt_of_le_of_lt ?_ sound.short⟩
  rw [sound.body_eq, flatMap_def]
  exact (sublist_flatten_of_mem (List.mem_map_of_mem hmu)).length_le

omit sound in
theorem replayMutations_cons {mu : MutationData} (storable : mu.Storable codes)
    (hoffset : mu.header.logOffset = Int64.ofInt offset) (fuel : Nat) (left : ByteString) :
    replayMutations codes (fuel + 1) (mu.bytes codes ++ left) offset =
      (replayMutations codes fuel left (offset + (mu.bytes codes).length)).map
        fun replayed => { replayed with mutations := mu :: replayed.mutations } := by
  have hnonempty : mu.bytes codes ++ left ≠ [] := by
    intro hnil
    have hpos := bytes_pos codes mu
    simp [(append_eq_nil_iff.mp hnil).1] at hpos
  have hlength : (((mu.bytes codes ++ left).length : Nat) : Int) - left.length =
      (mu.bytes codes).length := by
    rw [length_append]
    omega
  rw [replayMutations, if_neg hnonempty, readFrom_writeTo storable]
  simp only [hoffset, ne_eq, not_true_eq_false, if_false, hlength]

omit sound in
theorem replayMutations_placed {mutations : List MutationData} {fuel : Nat}
    (storable : ∀ mu ∈ mutations, mu.Storable codes) (placed : PlacedFrom codes offset mutations)
    (hfuel : mutations.length < fuel) :
    replayMutations codes fuel (mutations.flatMap (MutationData.bytes codes)) offset =
      some ⟨.ok, mutations, offset + (mutations.flatMap (MutationData.bytes codes)).length⟩ := by
  induction mutations generalizing offset fuel with
  | nil =>
    obtain ⟨fuel, rfl⟩ := Nat.exists_eq_add_of_lt hfuel
    simp [replayMutations]
  | cons mu rest ih =>
    obtain ⟨fuel, rfl⟩ : ∃ n, fuel = n + 1 := ⟨fuel - 1, by omega⟩
    have hrest := ih (fun other hother => storable other (mem_cons_of_mem _ hother)) placed.2
      (Nat.lt_of_succ_lt_succ hfuel)
    rw [flatMap_cons, replayMutations_cons (storable mu mem_cons_self) placed.1, hrest]
    simp [add_assoc]

theorem LogBlock.Sound.length_le_body : block.mutations.length ≤ block.body.length := by
  rw [sound.body_eq, length_flatMap, ← length_map (f := fun mu => (mu.bytes codes).length)]
  refine length_le_sum_of_one_le _ fun n hn => ?_
  obtain ⟨mu, -, rfl⟩ := List.mem_map.mp hn
  exact bytes_pos codes mu

theorem LogBlock.Sound.replayMutations :
    replayMutations codes (block.body.length + 1) block.body (block.startOffset + blockHeaderSize) =
      some ⟨.ok, block.mutations, block.startOffset + block.size⟩ := by
  have hreplay := replayMutations_placed (fun mu hmu => sound.storable hmu) sound.placed
    (Nat.lt_succ_of_le sound.length_le_body)
  rw [← sound.body_eq] at hreplay
  rw [hreplay, LogBlock.size_eq]
  simp [add_assoc]

end Blocks

/-! ### Files -/

section Replaying

variable {codes : TaskCodes} {file : DiskFile} {crc : UInt32} {block : LogBlock}
  {blocks : List LogBlock}

theorem reads_info (entry : UInt64 × ReplicaLogInfo) : Reads readInfo (infoBytes entry) entry := by
  simp only [infoBytes, append_assoc]
  exact (Reads.pod _).bind ((Reads.pod _).bind ((Reads.pod _).map _))

theorem reads_fileHeader {startGlobalOffset : Int64} {entry : UInt64 × ReplicaLogInfo}
    (header : LogFileHeader)
    (hheader : header = { startGlobalOffset, previousLogMaxDecrees := [entry] }) :
    Reads readFileHeader header.bytes header := by
  subst hheader
  simp only [LogFileHeader.bytes, append_assoc]
  refine (Reads.pod _).bind ((Reads.pod _).bind ((Reads.pod _).bind ((Reads.pod _).bind ?_)))
  exact (Reads.each [entry] fun entry _ => reads_info entry).map _

theorem replayBlock_torn {stream start : Nat} {torn : ByteString} (hstart : start ≠ 0)
    (hdrop : file.content.drop start = torn) (htorn : Torn file.startOffset crc torn) :
    file.replayBlock codes crc stream start =
      some (⟨if torn = [] then .handleEof else .incompleteData, [], file.startOffset + start⟩,
        crc) := by
  rw [replayBlock, if_neg hstart, hdrop, htorn.readNextLogBlock]

theorem replayBlock_sound {stream start : Nat} {left : ByteString} (hstart : start ≠ 0)
    (hdrop : file.content.drop start = block.bytes file.startOffset crc ++ left)
    (sound : block.Sound codes) (hoffset : block.startOffset = file.startOffset + start) :
    file.replayBlock codes crc stream start =
      some (⟨.ok, block.mutations, file.startOffset + start + block.size⟩,
        (block.header file.startOffset crc).bodyCrc) := by
  rw [replayBlock, if_neg hstart, hdrop, readNextLogBlock_sealed sound.short]
  simp only [if_neg hstart]
  rw [← hoffset, sound.replayMutations, LogBlock.header_bodyCrc]
  rfl

theorem replayFrom_blocks (file : DiskFile) (stream : Nat) {front torn : ByteString} {fuel : Nat}
    (hfront : front ≠ [])
    (hcontent : file.content = front ++ ((commitLogBlocks file.startOffset crc blocks).1 ++ torn))
    (hblocks : BlocksFrom codes (file.startOffset + front.length) blocks)
    (htorn : Torn file.startOffset (commitLogBlocks file.startOffset crc blocks).2 torn)
    (hfuel : blocks.length < fuel) :
    file.replayFrom codes fuel crc stream front.length =
      some ⟨if torn = [] then .handleEof else .incompleteData, blocks.flatMap LogBlock.mutations,
        file.startOffset + front.length + blocksSize blocks⟩ := by
  induction blocks generalizing front crc fuel stream with
  | nil =>
    obtain ⟨fuel, rfl⟩ : ∃ n, fuel = n + 1 := ⟨fuel - 1, by omega⟩
    have hstart : front.length ≠ 0 := by simpa using hfront
    have hdrop : file.content.drop front.length = torn := by
      rw [hcontent, drop_left]
      rfl
    have htorn : Torn file.startOffset crc torn := htorn
    rw [replayFrom, replayBlock_torn hstart hdrop htorn]
    by_cases hnil : torn = [] <;> simp [hnil]
  | cons block rest ih =>
    obtain ⟨fuel, rfl⟩ : ∃ n, fuel = n + 1 := ⟨fuel - 1, by omega⟩
    obtain ⟨hoffset, sound, hrest⟩ := hblocks
    have hstart : front.length ≠ 0 := by simpa using hfront
    simp only [commitLogBlocks, append_assoc] at hcontent htorn
    have hdrop := congrArg (List.drop front.length) hcontent
    rw [drop_left] at hdrop
    have hnext : (file.startOffset + front.length + block.size - file.startOffset).toNat =
        (front ++ block.bytes file.startOffset crc).length := by
      rw [length_append, LogBlock.length_bytes]
      omega
    have hcast : file.startOffset + ((front ++ block.bytes file.startOffset crc).length : Nat) =
        file.startOffset + front.length + block.size := by
      rw [length_append, LogBlock.length_bytes]
      omega
    have hfront' : front ++ block.bytes file.startOffset crc ≠ [] := by simp [hfront]
    have hcontent' := hcontent.trans (append_assoc _ _ _).symm
    have htail (stream) :=
      ih stream hfront' hcontent' (by rwa [hcast]) htorn (Nat.lt_of_succ_lt_succ hfuel)
    rw [replayFrom, replayBlock_sound hstart hdrop sound hoffset]
    simp only [ne_eq, not_true_eq_false, if_false, hnext, htail, map_some,
      flatMap_cons, blocksSize_cons]
    congr 2
    rw [hcast]
    omega

end Replaying

structure FileImage where
  index : Nat
  startOffset : Int
  /-- The entry of the partition in the header. -/
  entry : UInt64 × ReplicaLogInfo
  blocks : List LogBlock := []
  torn : ByteString := []

namespace FileImage

def header (image : FileImage) : LogFileHeader where
  startGlobalOffset := Int64.ofInt image.startOffset
  previousLogMaxDecrees := [image.entry]

def headerBlock (image : FileImage) : LogBlock where
  startOffset := image.startOffset
  blobs := [image.header.bytes]

def front (image : FileImage) : ByteString := image.headerBlock.bytes image.startOffset 0

def committed (image : FileImage) : ByteString × UInt32 :=
  commitLogBlocks image.startOffset (image.headerBlock.header image.startOffset 0).bodyCrc
    image.blocks

def file (image : FileImage) : DiskFile where
  index := image.index
  startOffset := image.startOffset
  content := image.front ++ (image.committed.1 ++ image.torn)

def dataEnd (image : FileImage) : Int :=
  image.startOffset + image.front.length + blocksSize image.blocks

def mutations (image : FileImage) : List MutationData := image.blocks.flatMap LogBlock.mutations

def err (image : FileImage) : ErrorCode := if image.torn = [] then .handleEof else .incompleteData

structure Sound (codes : TaskCodes) (image : FileImage) : Prop where
  blocks : BlocksFrom codes (image.startOffset + image.front.length) image.blocks
  torn : Torn image.startOffset image.committed.2 image.torn

variable {codes : TaskCodes} {image : FileImage}

theorem length_header : image.header.bytes.length = image.header.size := by
  simp [LogFileHeader.bytes, LogFileHeader.size, header, infoBytes, Pod.width]

theorem body_headerBlock : image.headerBlock.body = image.header.bytes := by
  simp [headerBlock, LogBlock.body]

theorem headerBlock_short : image.headerBlock.body.length < 2 ^ 31 := by
  rw [body_headerBlock, length_header]
  simp [LogFileHeader.size, header]

theorem length_front : image.front.length = blockHeaderSize + image.header.size := by
  rw [front, LogBlock.length_bytes, LogBlock.size_eq, body_headerBlock, length_header]

theorem front_ne_nil (image : FileImage) : image.front ≠ [] := by
  rw [← length_pos_iff_ne_nil, length_front]
  simp [blockHeaderSize]

theorem isRightHeader : image.header.isRightHeader image.startOffset = true := by
  simp [LogFileHeader.isRightHeader, header]

theorem readNextLogBlock_front {buffered : Nat} (left : ByteString) :
    readNextLogBlock buffered 0 (image.front ++ left) =
      some (.ok (image.header.bytes, (image.headerBlock.header image.startOffset 0).bodyCrc)) := by
  rw [front, readNextLogBlock_sealed headerBlock_short, LogBlock.header_bodyCrc, body_headerBlock]

theorem readFileHeader_bytes : readFileHeader image.header.bytes = some (image.header, []) := by
  have hread := reads_fileHeader image.header rfl []
  rwa [append_nil] at hread

theorem openRead_file (image : FileImage) : image.file.openRead = some (.ok image.header) := by
  rw [openRead]
  simp only [file, readNextLogBlock_front, readFileHeader_bytes, isRightHeader, if_true]

theorem replayBlock_front : image.file.replayBlock codes 0 0 0 =
    some (⟨.ok, [], image.startOffset + image.front.length⟩,
      (image.headerBlock.header image.startOffset 0).bodyCrc) := by
  rw [replayBlock]
  simp only [file, drop_zero, if_true, readNextLogBlock_front, readFileHeader_bytes,
    isRightHeader, replayMutations, map_some, length_front]
  simp [add_assoc]

theorem length_blocks_le (image : FileImage) : image.blocks.length ≤ blocksSize image.blocks := by
  rw [blocksSize, ← length_map (f := LogBlock.size)]
  refine length_le_sum_of_one_le _ fun n hn => ?_
  obtain ⟨block, -, rfl⟩ := List.mem_map.mp hn
  simp [LogBlock.size, blockHeaderSize]
  omega

theorem length_content (image : FileImage) : image.file.content.length =
    image.front.length + (blocksSize image.blocks + image.torn.length) := by
  simp [file, committed]

theorem replay_file (sound : image.Sound codes) :
    image.file.replay codes = some ⟨image.err, image.mutations, image.dataEnd⟩ := by
  have hfuel : image.blocks.length < image.file.content.length := by
    have hfront := length_pos_iff_ne_nil.mpr image.front_ne_nil
    have hblocks := image.length_blocks_le
    rw [length_content]
    omega
  have hblocks (stream) :=
    replayFrom_blocks image.file stream image.front_ne_nil rfl sound.blocks sound.torn hfuel
  have hstart : (image.startOffset + image.front.length - image.file.startOffset).toNat =
      image.front.length := by
    simp [file]
  rw [replay, replayFrom, replayBlock_front]
  simp only [ne_eq, not_true_eq_false, if_false, hstart, hblocks, map_some, nil_append]
  rfl

def extend (image : FileImage) (blocks : List LogBlock) : FileImage :=
  { image with blocks := image.blocks ++ blocks }

theorem committed_extend (image : FileImage) (blocks : List LogBlock) :
    (image.extend blocks).committed =
      (image.committed.1 ++ (commitLogBlocks image.startOffset image.committed.2 blocks).1,
        (commitLogBlocks image.startOffset image.committed.2 blocks).2) :=
  commitLogBlocks_append

theorem content_extend (htorn : image.torn = []) (blocks : List LogBlock) :
    (image.extend blocks).file.content =
      image.file.content ++ (commitLogBlocks image.startOffset image.committed.2 blocks).1 := by
  have htorn' : (image.extend blocks).torn = [] := htorn
  simp only [file, committed_extend, htorn, htorn', append_nil, append_assoc]
  rfl

theorem dataEnd_extend (image : FileImage) (blocks : List LogBlock) :
    (image.extend blocks).dataEnd = image.dataEnd + blocksSize blocks := by
  have hfront : (image.extend blocks).front = image.front := rfl
  simp only [dataEnd, hfront]
  simp only [extend, blocksSize_append]
  omega

theorem Sound.extend (sound : image.Sound codes) {blocks : List LogBlock}
    (htorn : image.torn = []) (hblocks : BlocksFrom codes image.dataEnd blocks) :
    (image.extend blocks).Sound codes := by
  constructor
  · exact blocksFrom_append.mpr ⟨sound.blocks, hblocks⟩
  · change Torn _ _ image.torn
    rw [htorn]
    exact torn_nil _ _

end FileImage

open FileImage

/-- The files of a log: indices and offsets follow each other. -/
def Chained (images : List FileImage) : Prop :=
  images.IsChain fun image next =>
    next.index = image.index + 1 ∧ next.startOffset = image.dataEnd

section Files

variable {codes : TaskCodes} {images : List FileImage}

theorem flatMap_mutations (images : List FileImage) : images.flatMap mutations =
    (images.flatMap blocks).flatMap LogBlock.mutations :=
  flatMap_assoc.symm

theorem startOffset_le_dataEnd (image : FileImage) : image.startOffset ≤ image.dataEnd := by
  unfold dataEnd
  omega

variable {init : List FileImage}

theorem Chained.before_last {last : FileImage}
    (chained : Chained (init ++ [last])) {image : FileImage} (himage : image ∈ init) :
    image.index < last.index ∧ image.dataEnd ≤ last.startOffset := by
  have trans : IsTrans FileImage fun image next =>
      image.index < next.index ∧ image.dataEnd ≤ next.startOffset :=
    ⟨fun _ next _ h h' => ⟨h.1.trans h'.1, h.2.trans ((startOffset_le_dataEnd next).trans h'.2)⟩⟩
  have hstep : ∀ image next : FileImage,
      (next.index = image.index + 1 ∧ next.startOffset = image.dataEnd) →
        image.index < next.index ∧ image.dataEnd ≤ next.startOffset := by
    intro image next h
    exact ⟨by omega, h.2.ge⟩
  have hpairwise := isChain_iff_pairwise.mp (chained.imp hstep)
  exact (pairwise_append.mp hpairwise).2.2 image himage last (by simp)

/-- Only where the last file starts matters for the files before it. -/
theorem Chained.replace_last {last last' : FileImage}
    (chained : Chained (init ++ [last])) (hindex : last'.index = last.index)
    (hstart : last'.startOffset = last.startOffset) : Chained (init ++ [last']) := by
  unfold Chained at chained ⊢
  rw [isChain_append] at chained ⊢
  refine ⟨chained.1, .singleton _, ?_⟩
  intro image himage next hnext
  obtain rfl : last' = next := by simpa using hnext
  rw [hindex, hstart]
  exact chained.2.2 image himage last (by simp)

variable (chained : Chained images)
include chained

theorem images_contiguous (huntorn : ∀ image ∈ images, image.torn = []) :
    (images.map file).IsChain fun file next => next.startOffset = file.endOffset := by
  rw [isChain_map]
  refine chained.imp_of_mem_imp ?_
  intro image next himage _ hnext
  have hcontent := image.length_content
  rw [huntorn image himage, length_nil] at hcontent
  change next.startOffset = image.startOffset + (image.file.content.length : Int)
  rw [hnext.2, hcontent, dataEnd]
  omega

theorem checkLogFilesContinuity_images : checkLogFilesContinuity (images.map file) = true := by
  induction images with
  | nil => rfl
  | cons image rest ih =>
    cases rest with
    | nil => rfl
    | cons next rest =>
      have hnext := isChain_cons_cons.mp chained
      have hindex : next.file.index = image.file.index + 1 := hnext.1.1
      simp only [map_cons, checkLogFilesContinuity, hindex, BEq.rfl, Bool.true_and]
      exact ih hnext.2

theorem replayFiles_images (sound : ∀ image ∈ images, image.Sound codes) {endOffset : Int}
    (err : ErrorCode)
    (hstart : ∀ image, images.head? = some image → image.startOffset = endOffset) :
    replayFiles codes (images.map FileImage.file) endOffset err =
      some ⟨(images.getLast?.map FileImage.err).getD err, images.flatMap FileImage.mutations,
        (images.getLast?.map FileImage.dataEnd).getD endOffset⟩ := by
  induction images generalizing endOffset err with
  | nil => rfl
  | cons image rest ih =>
    have hfile : image.file.startOffset = endOffset := hstart image rfl
    have herr : image.err = .ok ∨ image.err = .handleEof ∨ image.err = .incompleteData := by
      unfold FileImage.err
      split <;> simp
    have hnext : ∀ next, rest.head? = some next → next.startOffset = image.dataEnd := by
      intro next hnext
      cases rest with
      | nil => simp at hnext
      | cons first rest =>
        obtain rfl := some.inj hnext
        exact (isChain_cons_cons.mp chained).1.2
    have hrest := ih chained.tail
      (fun other hother => sound other (mem_cons_of_mem _ hother)) image.err hnext
    simp only [map_cons, replayFiles, hfile, ne_eq, not_true_eq_false, if_false,
      FileImage.replay_file (sound image mem_cons_self), herr, if_true, hrest,
      map_some, flatMap_cons]
    cases rest with
    | nil => rfl
    | cons next rest =>
      have hlast := List.getLast?_eq_some_getLast (cons_ne_nil next rest)
      simp only [List.getLast?_cons_cons, hlast, map_some, getD_some]

/-- **The replay of a log** calls back with the mutations of its files, and ends where the last
whole block ends. -/
theorem replayLogs_images (sound : ∀ image ∈ images, image.Sound codes) :
    replayLogs codes (images.map FileImage.file) =
      some ⟨.ok, images.flatMap FileImage.mutations,
        (images.getLast?.map FileImage.dataEnd).getD 0⟩ := by
  have hstart : ∀ image, images.head? = some image →
      image.startOffset = ((images.map FileImage.file).head?.map DiskFile.startOffset).getD 0 := by
    intro image hhead
    rw [List.head?_map, hhead]
    rfl
  have hreplay := replayFiles_images chained sound .ok hstart
  rw [replayLogs, if_pos (checkLogFilesContinuity_images chained)]
  simp only [hreplay]
  cases hlast : images.getLast? with
  | none =>
    obtain rfl := List.getLast?_eq_none_iff.mp hlast
    simp
  | some last =>
    -- the last file was read to its end unless something torn is left in it
    have hend : ((images.map FileImage.file).getLast?.map DiskFile.endOffset).getD 0 =
        last.dataEnd + last.torn.length := by
      rw [List.getLast?_map, hlast]
      change last.startOffset + (last.file.content.length : Int) = _
      rw [FileImage.length_content, FileImage.dataEnd]
      omega
    simp only [map_some, getD_some, hend, FileImage.err]
    by_cases htorn : last.torn = []
    · simp [htorn]
    · simp [htorn]

omit chained

theorem loadFiles_images (images : List FileImage) :
    PrivateLog.loadFiles (images.map file) = some ⟨.ok, images.map file, images.map file⟩ := by
  induction images with
  | nil => rfl
  | cons image rest ih =>
    simp only [map_cons, PrivateLog.loadFiles, image.openRead_file, ih, map_some]

theorem loadFiles_headless (images : List FileImage) {file : DiskFile}
    (htorn : Torn file.startOffset 0 file.content) :
    PrivateLog.loadFiles (images.map FileImage.file ++ [file]) =
      some ⟨.ok, images.map FileImage.file, images.map FileImage.file⟩ := by
  induction images with
  | nil =>
    have hopen : file.openRead =
        some (.error (if file.content = [] then .handleEof else .incompleteData)) := by
      rw [openRead, htorn.readNextLogBlock]
    simp only [map_nil, nil_append, PrivateLog.loadFiles, hopen]
    split <;> simp
  | cons image rest ih =>
    simp only [map_cons, cons_append, PrivateLog.loadFiles, image.openRead_file, ih, map_some]

end Files

/-! ### Cutting a file -/

/-- A prefix of the blocks of a file and of what is torn after them: the blocks that lie wholly
in it, and a part of the next one. -/
theorem cut_blocks {fileStart : Int} {crc : UInt32} {blocks : List LogBlock} {torn : ByteString}
    (hshort : ∀ block ∈ blocks, block.body.length < 2 ^ 31)
    (htorn : Torn fileStart (commitLogBlocks fileStart crc blocks).2 torn) (cut : Nat) :
    ∃ whole lost torn', blocks = whole ++ lost ∧
      ((commitLogBlocks fileStart crc blocks).1 ++ torn).take cut =
        (commitLogBlocks fileStart crc whole).1 ++ torn' ∧
      Torn fileStart (commitLogBlocks fileStart crc whole).2 torn' ∧
      blocksSize whole + torn'.length ≤ cut ∧
      ∀ block rest, lost = block :: rest → cut < blocksSize whole + block.size := by
  induction blocks generalizing crc cut with
  | nil =>
    obtain ⟨block, hblock, hpre, hlength⟩ := htorn
    refine ⟨[], [], torn.take cut, rfl, rfl, ⟨block, hblock, ?_, ?_⟩, ?_, by simp⟩
    · exact (List.take_prefix cut torn).trans hpre
    · exact (List.take_prefix cut torn).length_le.trans_lt hlength
    · simp
  | cons block rest ih =>
    by_cases hcut : cut < block.size
    · refine ⟨[], block :: rest, (block.bytes fileStart crc).take cut, rfl, ?_,
        ⟨block, hshort block mem_cons_self, take_prefix _ _, ?_⟩, ?_, ?_⟩
      · simp only [commitLogBlocks, append_assoc, nil_append]
        rw [take_append_of_le_length (by rw [LogBlock.length_bytes]; exact hcut.le)]
      · rw [LogBlock.length_bytes]
        exact (length_take_le _ _).trans_lt hcut
      · simp
      · rintro other others hlost
        obtain rfl := (List.cons.inj hlost).1
        simpa using hcut
    · obtain ⟨whole, lost, torn', hblocks, htake, htorn', hsize, hnext⟩ :=
        ih (fun other hother => hshort other (mem_cons_of_mem _ hother)) htorn (cut - block.size)
      refine ⟨block :: whole, lost, torn', by rw [hblocks, cons_append], ?_, htorn', ?_, ?_⟩
      · simp only [commitLogBlocks, append_assoc]
        rw [take_append, LogBlock.length_bytes, htake,
          take_of_length_le (by rw [LogBlock.length_bytes]; omega)]
      · rw [blocksSize_cons]
        omega
      · intro other others hlost
        have := hnext other others hlost
        rw [blocksSize_cons]
        omega

end Pegasus.Log
