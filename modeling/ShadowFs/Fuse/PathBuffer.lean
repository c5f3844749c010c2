import ShadowFs.Fuse.Buffers

/-!
# Spelling a path

`try_get_path` spells the path of a node from its end: each name is put in front of what is
there, with a slash before it, into a buffer that is filled from its end and doubled when a
name does not fit.
-/

namespace ShadowFs.Libfuse

open CLib

/-- The block at `buf` and the offset of `s` in it. -/
structure PathBuffer where
  buf : List Byte
  s : Nat

def PathBuffer.text (b : PathBuffer) : List Byte :=
  b.buf.drop b.s

/-- The name is copied in front of the text, and a slash in front of it; `none` if that would
be outside of the block. -/
def storeName (b : PathBuffer) (name : CString) : Option PathBuffer :=
  if name.length < b.s ∧ b.s ≤ b.buf.length then
    let s := b.s - name.length
    some { buf := poke (poke b.buf s name.bytes) (s - 1) [slash], s := s - 1 }
  else none

/-- The block after `realloc`, with the text moved to its end. -/
def enlarge (junk : Nat -> Byte) (newbufsize : Nat) (b : PathBuffer) : PathBuffer :=
  let pathlen := b.buf.length - b.s
  let newbuf := b.buf ++ (List.range (newbufsize - b.buf.length)).map junk
  let s := newbufsize - pathlen
  { buf := poke newbuf s ((newbuf.drop (b.buf.length - pathlen)).take pathlen), s := s }

/-- `room` says whether a block of a size can be had, and what its new bytes are.  The loop
that doubles the size does not end if the text is too long. -/
def addName (room : Nat -> Option (Nat -> Byte)) (b : PathBuffer) (name : CString) :
    Option (Option PathBuffer) :=
  if b.s ≤ name.length then
    let pathlen := b.buf.length - b.s
    let newbufsize := growSize (pathlen + name.length + 1) 32 b.buf.length
    if newbufsize < pathlen + name.length + 1 then none
    else
      match room newbufsize with
      | none => some none
      | some junk => (storeName (enlarge junk newbufsize b) name).map some
  else (storeName b name).map some

/-- The start of the spelling: only the terminator. -/
def newPath (junk : Nat -> Byte) : PathBuffer :=
  { buf := (List.range 255).map junk ++ [0], s := 255 }

/-- The text is moved to the start of the block; that of the root is a slash. -/
def pathString (b : PathBuffer) : Option CString :=
  match b.buf[b.s]? with
  | none => none
  | some c =>
      if c ≠ 0 then some (stringAt (poke b.buf 0 b.text) 0)
      else some (stringAt (pokeString b.buf 0 (CString.lit "/")) 0)

/-- The offset is inside of the block, and the size of the block is that of an `unsigned`. -/
structure PathBuffer.Fits (b : PathBuffer) : Prop where
  inside : b.s ≤ b.buf.length
  least : 256 ≤ b.buf.length
  most : b.buf.length ≤ 0xffffffff

theorem PathBuffer.text_length (b : PathBuffer) :
    b.text.length = b.buf.length - b.s :=
  List.length_drop

theorem storeName_spec {b : PathBuffer} (h : b.Fits) {name : CString}
    (hroom : name.length < b.s) :
    exists b', storeName b name = some b' ∧ b'.Fits ∧
      b'.text = slash :: (name.bytes ++ b.text) := by
  have hinside := h.inside
  have hlen : name.bytes.length = name.length := rfl
  have hfit : b.s - name.length + name.bytes.length ≤ b.buf.length := by
    lia
  have hcopied : (poke b.buf (b.s - name.length) name.bytes).length = b.buf.length :=
    poke_length _ _ (by lia)
  have hslash : b.s - name.length - 1 + [slash].length ≤
      (poke b.buf (b.s - name.length) name.bytes).length := by
    rw [hcopied, List.length_singleton]
    lia
  have hlength : (poke (poke b.buf (b.s - name.length) name.bytes) (b.s - name.length - 1)
      [slash]).length = b.buf.length := by
    rw [poke_length _ _ (by lia), hcopied]
  refine ⟨_, if_pos ⟨hroom, hinside⟩, ⟨?_, ?_, ?_⟩, ?_⟩
  · dsimp only
    rw [hlength]
    lia
  · dsimp only
    rw [hlength]
    exact h.least
  · dsimp only
    rw [hlength]
    exact h.most
  · rw [PathBuffer.text, poke_drop_self hslash, List.length_singleton,
      show b.s - name.length - 1 + 1 = b.s - name.length by lia, poke_drop_self hfit, hlen,
      show b.s - name.length + name.length = b.s by lia]
    rfl

theorem enlarge_spec (junk : Nat -> Byte) {newsize : Nat} {b : PathBuffer} (h : b.Fits)
    (hgrown : b.buf.length ≤ newsize) (hbound : newsize ≤ 0xffffffff) :
    (enlarge junk newsize b).Fits ∧ (enlarge junk newsize b).text = b.text ∧
      (enlarge junk newsize b).s = newsize - b.text.length := by
  have hinside := h.inside
  have hleast := h.least
  have htext := b.text_length
  generalize hblock : b.buf ++ (List.range (newsize - b.buf.length)).map junk = newbuf
  have hnewlen : newbuf.length = newsize := by
    rw [← hblock, List.length_append, List.length_map, List.length_range]
    lia
  have hmoved : (newbuf.drop (b.buf.length - (b.buf.length - b.s))).take
      (b.buf.length - b.s) = b.text := by
    rw [show b.buf.length - (b.buf.length - b.s) = b.s by lia, ← hblock,
      List.drop_append_of_le_length hinside, List.take_left' List.length_drop]
    rfl
  have hplace : newsize - b.text.length + b.text.length ≤ newbuf.length := by
    rw [hnewlen]
    lia
  have hresult : enlarge junk newsize b =
      { buf := poke newbuf (newsize - b.text.length) b.text, s := newsize - b.text.length } := by
    rw [enlarge, hblock, hmoved, htext]
  have hpoked : (poke newbuf (newsize - b.text.length) b.text).length = newsize := by
    rw [poke_length _ _ (by lia), hnewlen]
  rw [hresult]
  refine ⟨⟨?_, ?_, ?_⟩, ?_, rfl⟩
  · dsimp only
    lia
  · dsimp only
    lia
  · dsimp only
    lia
  · rw [PathBuffer.text, poke_drop_self hplace, List.drop_of_length_le, List.append_nil]
    rw [hnewlen]
    lia

theorem addName_spec (room : Nat -> Option (Nat -> Byte)) {b : PathBuffer} (h : b.Fits)
    {name : CString} (hlen : b.text.length + name.length + 1 ≤ 0xffffffff) :
    addName room b name = some none ∨
      exists b', addName room b name = some (some b') ∧ b'.Fits ∧
        b'.text = slash :: (name.bytes ++ b.text) := by
  rw [addName]
  by_cases hfull : b.s ≤ name.length
  · rw [if_pos hfull]
    have hmost := h.most
    have hleast := h.least
    rw [b.text_length] at hlen
    dsimp only
    generalize hsize : growSize (b.buf.length - b.s + name.length + 1) 32 b.buf.length = newsize
    have henough : b.buf.length - b.s + name.length + 1 ≤ newsize := by
      rw [← hsize]
      exact le_growSize hlen (by lia)
    have hgrown : b.buf.length ≤ newsize := by
      rw [← hsize]
      exact self_le_growSize hmost
    have hbound : newsize ≤ 0xffffffff := by
      rw [← hsize]
      exact growSize_le hmost
    rw [if_neg (by lia)]
    cases hnew : room newsize with
    | none => exact Or.inl rfl
    | some junk =>
        right
        rcases enlarge_spec junk h hgrown hbound with ⟨hfits, htext, hs⟩
        have hroom : name.length < (enlarge junk newsize b).s := by
          rw [hs, b.text_length]
          lia
        rcases storeName_spec hfits hroom with ⟨b', hstore, hfits', htext'⟩
        refine ⟨b', ?_, hfits', ?_⟩
        · simp only [hstore, Option.map_some]
        · rw [htext', htext]
  · rw [if_neg hfull]
    right
    rcases storeName_spec h (Nat.lt_of_not_le hfull) with ⟨b', hstore, hfits, htext⟩
    exact ⟨b', by rw [hstore, Option.map_some], hfits, htext⟩

theorem newPath_fits (junk : Nat -> Byte) : (newPath junk).Fits ∧ (newPath junk).text = [0] := by
  have hlen : ((List.range 255).map junk).length = 255 := by
    rw [List.length_map, List.length_range]
  have hbuf : (newPath junk).buf.length = 256 := by
    rw [newPath, List.length_append, hlen, List.length_singleton]
  refine ⟨⟨?_, ?_, ?_⟩, ?_⟩
  · rw [hbuf]
    exact Nat.le_succ 255
  · rw [hbuf]
  · rw [hbuf]
    lia
  · rw [PathBuffer.text]
    exact List.drop_left' hlen

theorem pathString_spec {b : PathBuffer} (h : b.Fits) {path : CString}
    (htext : b.text = path.bytes ++ [0]) :
    pathString b = some (if path.bytes = [] then CString.lit "/" else path) := by
  have hget : b.buf[b.s]? = b.text.head? := by
    rw [PathBuffer.text, List.head?_drop]
  rw [pathString, hget, htext]
  rcases hbytes : path.bytes with _ | ⟨c, rest⟩
  · rw [List.nil_append, List.head?_cons, if_pos rfl]
    dsimp only
    rw [if_neg (fun hne => hne rfl), stringAt_pokeString]
    have hleast := h.least
    have hone : (CString.lit "/").length = 1 := rfl
    lia
  · rw [List.cons_append, List.head?_cons, if_neg (List.cons_ne_nil c rest)]
    have hc : c ≠ 0 := by
      rintro rfl
      exact path.nulFree (by rw [hbytes]; exact List.mem_cons_self)
    have hfit : 0 + b.text.length ≤ b.buf.length := by
      rw [b.text_length]
      lia
    have hfull : b.text = c :: (rest ++ [0]) := by
      rw [htext, hbytes, List.cons_append]
    dsimp only
    rw [if_pos hc, stringAt, ← hfull, poke_drop_self hfit, htext, List.append_assoc,
      List.singleton_append, CString.ofBytes_append_nul]

end ShadowFs.Libfuse
