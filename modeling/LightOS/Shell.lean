import LightOS.Uaccess
import LightOS.Lib.Runs

/-!
# Path resolution of the shell

The kernel keeps no working directory, so the shell of `userspace/shell` keeps one and
resolves relative paths itself. It edits components in place in a buffer of 120 bytes:
every slice and every subtraction that could leave the buffer is checked here, as the
compiled program checks it.
-/
namespace LightOS.Shell
open Lib

abbrev maxPath : ℕ := 120
abbrev slash : UInt8 := 0x2f
abbrev dot : UInt8 := 0x2e

/-- `[u8; MAX_PATH]`. -/
structure Buf where
  bytes : List UInt8
  size : bytes.length = maxPath

namespace Buf

def zero : Buf := ⟨List.replicate maxPath 0, by simp⟩

/-- `buf[i]`. -/
def byte (b : Buf) (i : ℕ) : Except Fault UInt8 :=
  match b.bytes[i]? with
  | some x => .ok x
  | none => .error (.panic .indexOutOfRange)

/-- `&buf[..len]`. -/
def upTo (b : Buf) (len : ℕ) : Except Fault (List UInt8) :=
  if len ≤ maxPath then .ok (b.bytes.take len) else .error (.panic .indexOutOfRange)

/-- `buf[start..start + bs.len()].copy_from_slice(bs)`. -/
def copy (b : Buf) (start : ℕ) (bs : List UInt8) : Except Fault Buf :=
  if h : start + bs.length ≤ maxPath then
    .ok ⟨b.bytes.take start ++ bs ++ b.bytes.drop (start + bs.length), by
      simp only [List.length_append, List.length_take, List.length_drop, b.size]
      omega⟩
  else .error (.panic .indexOutOfRange)

/-- `core::str::from_utf8(&buf[..len]).unwrap_or("/")`. -/
def text (b : Buf) (len : ℕ) : Except Fault (List UInt8) := do
  let s ← b.upTo len
  return if utf8Valid s then s else [slash]

end Buf

/-- Checked subtraction of the dev profile. -/
def checkedSub (a b : ℕ) : Except Fault ℕ :=
  if b ≤ a then .ok (a - b) else .error (.panic .overflow)

structure Cwd where
  buf : Buf
  len : ℕ

/-- `/`, in a buffer that is zero behind it. -/
def Cwd.new : Cwd := ⟨⟨slash :: List.replicate 119 0, rfl⟩, 1⟩

/-- `while len > 1 && out[len - 1] != b'/' { len -= 1; }`. -/
def backUp (out : Buf) : ℕ → Except Fault ℕ
  | 0 => .ok 0
  | n + 1 => do
    if 1 < n + 1 then
      if (← out.byte n) ≠ slash then backUp out n else return n + 1
    else return n + 1

/-- Separate the next component from the ones before it, if there are any. -/
def separate (out : Buf) (len : ℕ) : Except Fault (Buf × ℕ) := do
  if 1 < len ∨ (← out.byte 0) ≠ slash ∨ len = 0 then
    if len + 1 < maxPath then return (← out.copy len [slash], len + 1)
    else return (out, len)
  else return (out, len)

/-- One round of the loop over the components. -/
def resolveComp (s : Buf × ℕ) (comp : List UInt8) : Except Fault (Buf × ℕ) := do
  if comp = [dot] then return s
  else if comp = [dot, dot] then
    let len ← backUp s.1 s.2
    if 1 < len then return (s.1, ← checkedSub len 1) else return (s.1, len)
  else
    let (out, len) ← separate s.1 s.2
    let n := min comp.length (← checkedSub (← checkedSub maxPath len) 1)
    return (← out.copy len (comp.take n), len + n)

/-- `path.split('/').filter(|c| !c.is_empty())`. -/
def components (path : List UInt8) : List (List UInt8) := (path.splitOn slash).filter (· ≠ [])

/-- What `resolve` puts into the buffer before it looks at the components. -/
def Cwd.start (cwd : Cwd) (path : List UInt8) (out : Buf) : Except Fault (Buf × ℕ) := do
  if path.head? ≠ some slash then return (← out.copy 0 (← cwd.buf.upTo cwd.len), cwd.len)
  else return (← out.copy 0 [slash], 1)

/-- Resolve `path` against the cwd into `out`. -/
def Cwd.resolve (cwd : Cwd) (path : List UInt8) (out : Buf) : Except Fault (List UInt8) := do
  let (out, len) ← (components path).foldlM resolveComp (← cwd.start path out)
  if len = 0 then (← out.copy 0 [slash]).text 1 else out.text len

/-- The builtin `cd`; `fd` is what `open_flags(path, O_DIRECTORY)` answers. -/
def Cwd.cd (cwd : Cwd) (arg : List UInt8) (fd : List UInt8 → ℤ) : Except Fault Cwd := do
  let path ← cwd.resolve (if arg = [] then [slash] else arg) .zero
  if fd path < 0 then return cwd
  else return ⟨← cwd.buf.copy 0 path, path.length⟩

/-! ## The reference -/

/-- A directory or file name. -/
structure Component (c : List UInt8) : Prop where
  nonempty : c ≠ []
  no_slash : slash ∉ c
  not_dot : c ≠ [dot]
  not_dotdot : c ≠ [dot, dot]
  utf8 : utf8Valid c = true

/-- Names joined with single slashes after a leading slash. -/
def render (cs : List (List UInt8)) : List UInt8 := slash :: [slash].intercalate cs

/-- Empty and `.` components are dropped, `..` removes the last name. -/
def follow (cs : List (List UInt8)) (comp : List UInt8) : List (List UInt8) :=
  if comp = [] ∨ comp = [dot] then cs
  else if comp = [dot, dot] then cs.dropLast
  else cs ++ [comp]

/-- Where resolution starts. -/
def origin (cwd path : List UInt8) : List (List UInt8) :=
  if path.head? = some slash then [] else components cwd

/-- What a path means at a working directory. -/
def reference (cwd path : List UInt8) : List UInt8 :=
  render ((path.splitOn slash).foldl follow (origin cwd path))

/-- A normalized absolute path. -/
def Normal (p : List UInt8) : Prop := ∃ cs, (∀ c ∈ cs, Component c) ∧ p = render cs

/-- Every intermediate result of the resolution fits in 119 bytes. -/
def FitsIn (cwd path : List UInt8) : Prop :=
  ∀ pre, pre <+: path.splitOn slash → (render (pre.foldl follow (origin cwd path))).length ≤ 119

/-- The bytes of the working directory. -/
def Cwd.path (cwd : Cwd) : List UInt8 := cwd.buf.bytes.take cwd.len

theorem render_nil : render [] = [slash] := rfl

/-- The path up to the start of the next name. -/
def parent (cs : List (List UInt8)) : List UInt8 := if cs = [] then [slash] else render cs ++ [slash]

theorem render_snoc (cs : List (List UInt8)) (c : List UInt8) :
    render (cs ++ [c]) = parent cs ++ c := by
  have hjoin {cs : List (List UInt8)} (h : cs ≠ []) :
      [slash].intercalate (cs ++ [c]) = [slash].intercalate cs ++ slash :: c := by
    induction cs with
    | nil => exact absurd rfl h
    | cons d cs ih =>
        cases cs with
        | nil => simp [List.intercalate_cons_cons, List.intercalate_singleton]
        | cons e cs =>
            have htail := ih (List.cons_ne_nil e cs)
            rw [List.cons_append] at htail
            rw [List.cons_append, List.cons_append, List.intercalate_cons_cons, htail,
              List.intercalate_cons_cons]
            simp only [List.append_assoc]
  by_cases hcs : cs = []
  · subst hcs
    simp [render, parent, List.intercalate_singleton]
  · rw [render, hjoin hcs, parent, if_neg hcs, render]
    simp

theorem components_render {cs : List (List UInt8)} (h : ∀ c ∈ cs, Component c) :
    components (render cs) = cs := by
  have hsplit : (render cs).splitOn slash = [] :: ([slash].intercalate cs).splitOn slash := by
    rw [render, List.splitOn_cons_eq_if_modifyHead, if_pos (by decide)]
  rw [components, hsplit, List.filter_cons_of_neg (by simp)]
  by_cases hcs : cs = []
  · subst hcs
    rfl
  · rw [List.splitOn_intercalate slash (fun c hc => (h c hc).no_slash) hcs]
    exact List.filter_eq_self.mpr fun c hc => by simpa using (h c hc).nonempty

/-! ## Well-formed text -/

/-- A slash is no part of a longer sequence, so it separates well-formed text. -/
theorem utf8Valid_slash (a b : List UInt8) :
    utf8Valid (a ++ slash :: b) = (utf8Valid a && utf8Valid b) := by
  have hcont : isCont slash = false := rfl
  have hlow : ¬ (0x80 : UInt8) ≤ slash ∧ ¬ (0x90 : UInt8) ≤ slash ∧ ¬ (0xa0 : UInt8) ≤ slash := by
    decide
  fun_induction utf8Valid a with
  | case1 =>
    rw [List.nil_append, utf8Valid.eq_def]
    rfl
  | case2 b0 t h ih =>
    rw [List.cons_append, utf8Valid.eq_def]
    simp only [if_pos h, ih]
  | _ =>
    -- a sequence ends in front of the slash, or takes it for a continuation byte and fails
    simp only [List.cons_append, List.nil_append]
    rw [utf8Valid.eq_def]
    simp (disch := assumption) only [if_neg, *, Bool.and_assoc, Bool.false_and, Bool.and_false,
      ite_self, decide_false, if_true, if_false, Bool.false_eq_true]
    try (repeat' split) <;> rfl

theorem utf8Valid_join (ls : List (List UInt8)) :
    utf8Valid ([slash].intercalate ls) = ls.all utf8Valid := by
  induction ls with
  | nil => rfl
  | cons a ls ih =>
      cases ls with
      | nil => simp [List.intercalate_singleton]
      | cons b ls =>
          rw [List.intercalate_cons_cons, List.append_assoc, List.singleton_append,
            utf8Valid_slash, ih]
          rfl

theorem utf8Valid_render {cs : List (List UInt8)} (h : ∀ c ∈ cs, Component c) :
    utf8Valid (render cs) = true := by
  have hroot := utf8Valid_slash [] ([slash].intercalate cs)
  rw [render]
  rw [List.nil_append] at hroot
  rw [hroot, utf8Valid_join, Bool.and_eq_true]
  exact ⟨by rw [utf8Valid.eq_def], List.all_eq_true.mpr fun c hc => (h c hc).utf8⟩

/-- The pieces between the slashes of a path. -/
theorem piece_spec {path c : List UInt8} (hp : utf8Valid path = true)
    (hc : c ∈ path.splitOn slash) : slash ∉ c ∧ utf8Valid c = true := by
  refine ⟨?_, ?_⟩
  · clear hp
    induction path generalizing c with
    | nil => simp_all
    | cons x path ih =>
        rw [List.splitOn_cons_eq_if_modifyHead] at hc
        split_ifs at hc with hx
        · obtain rfl | hc := List.mem_cons.mp hc
          · simp
          · exact ih hc
        · cases hs : path.splitOn slash with
          | nil => exact absurd hs (List.splitOn_ne_nil _ _)
          | cons d ds =>
              rw [hs, List.modifyHead_cons] at hc
              obtain rfl | hc := List.mem_cons.mp hc
              · have hd := ih (c := d) (by rw [hs]; simp)
                rw [beq_iff_eq] at hx
                simp only [List.mem_cons, not_or]
                exact ⟨Ne.symm hx, hd⟩
              · exact ih (by rw [hs]; simp [hc])
  · have hall := utf8Valid_join (path.splitOn slash)
    rw [List.intercalate_splitOn, hp] at hall
    exact List.all_eq_true.mp hall.symm c hc

theorem follow_names {cs : List (List UInt8)} {comp : List UInt8} (h : ∀ c ∈ cs, Component c)
    (hslash : slash ∉ comp) (hutf8 : utf8Valid comp = true) : ∀ c ∈ follow cs comp, Component c := by
  unfold follow
  split_ifs with h1 h2
  · exact h
  · exact fun c hc => h c (List.dropLast_subset cs hc)
  · intro c hc
    obtain hc | hc := List.mem_append.mp hc
    · exact h c hc
    · obtain rfl := List.mem_singleton.mp hc
      exact ⟨fun h0 => h1 (.inl h0), hslash, fun h0 => h1 (.inr h0), h2, hutf8⟩

/-! ## The buffer -/

namespace Buf

theorem byte_ok {b : Buf} {n i : ℕ} {x : UInt8} (h : (b.bytes.take n)[i]? = some x) :
    b.byte i = .ok x := by
  have hx : b.bytes[i]? = some x := by
    rw [List.getElem?_take] at h
    split_ifs at h with hi
    exact h
  rw [byte, hx]

theorem byte_safe (b : Buf) {i : ℕ} (h : i < 120) : ∃ x, b.byte i = .ok x := by
  have hi : i < b.bytes.length := by rw [b.size]; exact h
  exact ⟨b.bytes[i], by rw [byte, List.getElem?_eq_getElem hi]⟩

theorem upTo_ok {b : Buf} {len : ℕ} (h : len ≤ 120) : b.upTo len = .ok (b.bytes.take len) :=
  if_pos h

theorem length_take {b : Buf} {len : ℕ} (h : len ≤ 120) : (b.bytes.take len).length = len := by
  rw [List.length_take, b.size]
  exact min_eq_left h

theorem copy_ok (b : Buf) {i : ℕ} {l : List UInt8} (h : i + l.length ≤ 120) :
    ∃ b', b.copy i l = .ok b' ∧ b'.bytes.take (i + l.length) = b.bytes.take i ++ l := by
  refine ⟨_, dif_pos h, ?_⟩
  have hlen : (b.bytes.take i ++ l).length = i + l.length := by
    rw [List.length_append, length_take (by omega)]
  rw [List.take_append_of_le_length hlen.ge, ← hlen, List.take_length]

theorem text_ok {b : Buf} {len : ℕ} (h : len ≤ 120) :
    b.text len = .ok (if utf8Valid (b.bytes.take len) then b.bytes.take len else [slash]) := by
  rw [text, upTo_ok h]
  rfl

end Buf

/-! ## No access leaves the buffer -/

theorem backUp_safe (out : Buf) {n : ℕ} (h1 : 1 ≤ n) (h2 : n ≤ 120) :
    ∃ k, backUp out n = .ok k ∧ 1 ≤ k ∧ k ≤ n := by
  induction n with
  | zero => omega
  | succ n ih =>
      by_cases hn : 1 < n + 1
      · obtain ⟨x, hx⟩ := out.byte_safe (i := n) (by omega)
        by_cases hs : x = slash
        · refine ⟨n + 1, ?_, h1, le_rfl⟩
          simp [backUp, hn, hx, hs, bind, Except.bind, pure, Except.pure]
        · obtain ⟨k, hk, hk1, hkn⟩ := ih (by omega) (by omega)
          refine ⟨k, ?_, hk1, by omega⟩
          simp [backUp, hn, hx, hs, hk, bind, Except.bind]
      · exact ⟨n + 1, by simp [backUp, hn, pure, Except.pure], h1, le_rfl⟩

theorem separate_safe (out : Buf) {len : ℕ} (h1 : 1 ≤ len) (h2 : len ≤ 119) :
    ∃ s, separate out len = .ok s ∧ 1 ≤ s.2 ∧ s.2 ≤ 119 := by
  obtain ⟨x, hx⟩ := out.byte_safe (i := 0) (by decide)
  by_cases hsep : 1 < len ∨ x ≠ slash ∨ len = 0
  · by_cases hroom : len + 1 < 120
    · obtain ⟨b, hb, -⟩ := out.copy_ok (i := len) (l := [slash])
        (by simp only [List.length_singleton]; omega)
      refine ⟨(b, len + 1), ?_, by simp, by simp only; omega⟩
      simp only [separate, hx, bind, Except.bind, if_pos hsep, if_pos hroom, hb, pure, Except.pure]
    · refine ⟨(out, len), ?_, h1, h2⟩
      simp only [separate, hx, bind, Except.bind, if_pos hsep, if_neg hroom, pure, Except.pure]
  · refine ⟨(out, len), ?_, h1, h2⟩
    simp only [separate, hx, bind, Except.bind, if_neg hsep, pure, Except.pure]

theorem resolveComp_safe {s : Buf × ℕ} (comp : List UInt8) (h1 : 1 ≤ s.2) (h2 : s.2 ≤ 119) :
    ∃ s', resolveComp s comp = .ok s' ∧ 1 ≤ s'.2 ∧ s'.2 ≤ 119 := by
  unfold resolveComp
  by_cases hdot : comp = [dot]
  · exact ⟨s, by rw [if_pos hdot]; rfl, h1, h2⟩
  rw [if_neg hdot]
  by_cases hup : comp = [dot, dot]
  · rw [if_pos hup]
    obtain ⟨k, hk, hk1, hks⟩ := backUp_safe s.1 h1 (by omega)
    by_cases hlt : 1 < k
    · refine ⟨(s.1, k - 1), ?_, by simp only; omega, by simp only; omega⟩
      simp only [hk, bind, Except.bind, if_pos hlt, checkedSub, if_pos hk1, pure, Except.pure]
    · refine ⟨(s.1, k), ?_, hk1, by simp only; omega⟩
      simp only [hk, bind, Except.bind, if_neg hlt, pure, Except.pure]
  · rw [if_neg hup]
    obtain ⟨⟨out, len⟩, hsep, hlen1, hlen2⟩ := separate_safe s.1 h1 h2
    simp only at hlen1 hlen2
    have hroom1 : checkedSub maxPath len = .ok (120 - len) :=
      if_pos (show len ≤ 120 by omega)
    have hroom2 : checkedSub (120 - len) 1 = .ok (120 - len - 1) := if_pos (by omega)
    have htake : (comp.take (min comp.length (120 - len - 1))).length =
        min comp.length (120 - len - 1) := by
      rw [List.length_take]
      omega
    obtain ⟨b, hb, -⟩ := out.copy_ok (i := len)
      (l := comp.take (min comp.length (120 - len - 1))) (by rw [htake]; omega)
    refine ⟨(b, len + min comp.length (120 - len - 1)), ?_, by simp only; omega, by simp only; omega⟩
    simp only [hsep, hroom1, hroom2, hb, bind, Except.bind, pure, Except.pure]

/-! ## The buffer holds the reference -/

/-- The text in front of `len` renders the names resolved so far. -/
structure Holds (s : Buf × ℕ) (cs : List (List UInt8)) : Prop where
  text : s.1.bytes.take s.2 = render cs
  le : s.2 ≤ 119
  names : ∀ c ∈ cs, Component c

theorem Holds.len {s : Buf × ℕ} {cs : List (List UInt8)} (h : Holds s cs) :
    (render cs).length = s.2 := by
  rw [← h.text]
  exact Buf.length_take (by have := h.le; omega)

/-- Backing up over a name stops behind the slash in front of it. -/
theorem backUp_exact {out : Buf} {p d : List UInt8}
    (h : out.bytes.take (p.length + 1 + d.length) = p ++ slash :: d) (hd : slash ∉ d) :
    backUp out (p.length + 1 + d.length) = .ok (p.length + 1) := by
  induction d using List.reverseRecOn with
  | nil =>
      by_cases hp : 1 < p.length + 1
      · have hx : out.byte p.length = .ok slash := Buf.byte_ok (n := p.length + 1 + 0) (by
          rw [List.length_nil] at h
          rw [h]
          simp)
        simp [backUp, hp, hx, bind, Except.bind, pure, Except.pure]
      · simp [backUp, hp, pure, Except.pure]
  | append_singleton d x ih =>
      have hlen : p.length + 1 + (d ++ [x]).length = p.length + 1 + d.length + 1 := by
        rw [List.length_append, List.length_singleton]
        omega
      rw [hlen] at h ⊢
      have hx : out.byte (p.length + 1 + d.length) = .ok x := Buf.byte_ok (by
        have hat : (p ++ slash :: d).length = p.length + 1 + d.length := by
          rw [List.length_append, List.length_cons]
          omega
        rw [h, ← List.cons_append, ← List.append_assoc, ← hat, List.getElem?_concat_length])
      have hne : x ≠ slash := by
        rintro rfl
        exact hd (by simp)
      have hshort : out.bytes.take (p.length + 1 + d.length) = p ++ slash :: d := by
        have := congrArg (List.take (p.length + 1 + d.length)) h
        rw [List.take_take, min_eq_left (by omega)] at this
        rw [this, ← List.cons_append, ← List.append_assoc]
        exact List.take_left' (by simp; omega)
      rw [backUp, if_pos (by omega), hx]
      simp only [bind, Except.bind, if_pos hne]
      exact ih hshort fun hm => hd (by simp [hm])

theorem separate_exact {s : Buf × ℕ} {cs : List (List UInt8)} (h : Holds s cs)
    (hroom : (parent cs).length ≤ 119) :
    ∃ out, separate s.1 s.2 = .ok (out, (parent cs).length) ∧
      out.bytes.take (parent cs).length = parent cs := by
  have hx : s.1.byte 0 = .ok slash := Buf.byte_ok (n := s.2) (by rw [h.text]; rfl)
  have hlen := h.len
  by_cases hcs : cs = []
  · subst hcs
    rw [render_nil, List.length_singleton] at hlen
    refine ⟨s.1, ?_, ?_⟩
    · simp only [separate, hx, bind, Except.bind, pure, Except.pure, ← hlen]
      rfl
    · have htext := h.text
      rw [← hlen] at htext
      exact htext
  · have hparent : parent cs = render cs ++ [slash] := if_neg hcs
    have hone : 1 < s.2 := by
      obtain ⟨c, cs, rfl⟩ := List.exists_cons_of_ne_nil hcs
      have hc := List.length_pos_iff.mpr (h.names c (by simp)).nonempty
      rw [← hlen, render, List.length_cons]
      cases cs with
      | nil =>
          rw [List.intercalate_singleton]
          omega
      | cons d cs =>
          rw [List.intercalate_cons_cons, List.length_append, List.length_append]
          omega
    have hlenp : (parent cs).length = s.2 + 1 := by
      rw [hparent, List.length_append, hlen, List.length_singleton]
    obtain ⟨out, hout, htext⟩ := s.1.copy_ok (i := s.2) (l := [slash])
      (by rw [List.length_singleton]; omega)
    refine ⟨out, ?_, ?_⟩
    · have hlt : s.2 + 1 < 120 := by omega
      simp only [separate, hx, bind, Except.bind, if_pos (Or.inl hone), if_pos hlt, hout, pure,
        Except.pure, hlenp]
    · rw [hlenp]
      rw [List.length_singleton] at htext
      rw [htext, h.text, hparent]

/-- `..` removes the last name, and nothing at the root. -/
theorem dropLast_exact {s : Buf × ℕ} {cs : List (List UInt8)} (h : Holds s cs) :
    ∃ k, backUp s.1 s.2 = .ok k ∧ 1 ≤ k ∧
      Holds (s.1, if 1 < k then k - 1 else k) cs.dropLast := by
  have hle := h.le
  have hnames : ∀ c ∈ cs.dropLast, Component c := fun c hc => h.names c (List.dropLast_subset cs hc)
  have hlen := h.len
  have htake {n : ℕ} {p q : List UInt8} (hpq : render cs = p ++ q) (hn : p.length = n) :
      s.1.bytes.take n = p := by
    have hns : n ≤ s.2 := by
      rw [← hlen, hpq, List.length_append]
      omega
    have := congrArg (List.take n) h.text
    rw [List.take_take, min_eq_left hns, hpq] at this
    rw [this, ← hn, List.take_left]
  obtain rfl | ⟨ds, d, rfl⟩ := List.eq_nil_or_concat cs
  · rw [render_nil, List.length_singleton] at hlen
    refine ⟨1, ?_, le_rfl, ?_, by simp, hnames⟩
    · rw [← hlen]
      rfl
    · exact htake (q := []) rfl rfl
  · rw [List.concat_eq_append] at *
    rw [List.dropLast_concat] at hnames ⊢
    have hd := h.names d (by simp)
    rw [render_snoc] at hlen htake
    have htext := h.text
    rw [render_snoc] at htext
    obtain ⟨p, hp⟩ : ∃ p, parent ds = p ++ [slash] := by
      unfold parent
      split_ifs
      · exact ⟨[], rfl⟩
      · exact ⟨render ds, rfl⟩
    have hs2 : s.2 = p.length + 1 + d.length := by
      rw [← hlen, hp, List.length_append, List.length_append, List.length_singleton]
    rw [hp, List.append_assoc, List.singleton_append, hs2] at htext
    refine ⟨p.length + 1, ?_, by omega, ?_, ?_, hnames⟩
    · rw [hs2]
      exact backUp_exact htext hd.no_slash
    · unfold parent at hp
      split_ifs at hp with hds
      · subst hds
        obtain rfl : p = [] := by simpa using hp
        exact htake rfl rfl
      · obtain rfl : render ds = p := List.append_cancel_right hp
        have hpos : 1 < (render ds).length + 1 := by
          rw [render, List.length_cons]
          omega
        rw [if_pos hpos]
        rw [parent, if_neg hds, List.append_assoc] at htake
        exact htake rfl rfl
    · simp only
      split_ifs <;> omega

/-- One round follows the reference as long as the result fits. -/
theorem resolveComp_exact {s : Buf × ℕ} {cs : List (List UInt8)} {comp : List UInt8}
    (h : Holds s cs) (hne : comp ≠ []) (hslash : slash ∉ comp) (hutf8 : utf8Valid comp = true)
    (hfit : (render (follow cs comp)).length ≤ 119) :
    ∃ s', resolveComp s comp = .ok s' ∧ Holds s' (follow cs comp) := by
  have hnames := follow_names h.names hslash hutf8
  unfold resolveComp
  by_cases hdot : comp = [dot]
  · refine ⟨s, by rw [if_pos hdot]; rfl, ?_⟩
    rwa [follow, if_pos (.inr hdot)]
  have hno : ¬ (comp = [] ∨ comp = [dot]) := not_or.mpr ⟨hne, hdot⟩
  rw [if_neg hdot]
  by_cases hup : comp = [dot, dot]
  · rw [if_pos hup]
    rw [follow, if_neg hno, if_pos hup]
    obtain ⟨k, hk, hk1, hholds⟩ := dropLast_exact h
    refine ⟨_, ?_, hholds⟩
    by_cases hlt : 1 < k
    · simp only [hk, bind, Except.bind, if_pos hlt, checkedSub, if_pos hk1, pure, Except.pure]
    · simp only [hk, bind, Except.bind, if_neg hlt, pure, Except.pure]
  · rw [if_neg hup]
    rw [follow, if_neg hno, if_neg hup] at hnames hfit ⊢
    rw [render_snoc, List.length_append] at hfit
    obtain ⟨out, hsep, htext⟩ := separate_exact h (by omega)
    have hroom1 : checkedSub maxPath (parent cs).length = .ok (120 - (parent cs).length) :=
      if_pos (show (parent cs).length ≤ 120 by omega)
    have hpos := List.length_pos_iff.mpr hne
    have hroom2 : checkedSub (120 - (parent cs).length) 1 = .ok (120 - (parent cs).length - 1) :=
      if_pos (by omega)
    have hn : min comp.length (120 - (parent cs).length - 1) = comp.length := by omega
    obtain ⟨b, hb, hbtext⟩ := out.copy_ok (i := (parent cs).length) (l := comp) (by omega)
    refine ⟨(b, (parent cs).length + comp.length), ?_, ?_, hfit, hnames⟩
    · simp only [hsep, hroom1, hroom2, hn, List.take_length, hb, bind, Except.bind, pure,
        Except.pure]
    · rw [hbtext, htext, render_snoc]

/-! ## The whole path -/

theorem loop_safe (comps : List (List UInt8)) {s : Buf × ℕ} (h1 : 1 ≤ s.2) (h2 : s.2 ≤ 119) :
    ∃ s', comps.foldlM resolveComp s = .ok s' ∧ 1 ≤ s'.2 ∧ s'.2 ≤ 119 := by
  induction comps generalizing s with
  | nil => exact ⟨s, rfl, h1, h2⟩
  | cons comp comps ih =>
      obtain ⟨t, ht, ht1, ht2⟩ := resolveComp_safe comp h1 h2
      obtain ⟨s', hs', hs1, hs2⟩ := ih ht1 ht2
      refine ⟨s', ?_, hs1, hs2⟩
      simp only [List.foldlM_cons, ht, bind, Except.bind]
      exact hs'

theorem loop_exact {pieces : List (List UInt8)} {s : Buf × ℕ} {cs : List (List UInt8)}
    (h : Holds s cs) (hp : ∀ c ∈ pieces, slash ∉ c ∧ utf8Valid c = true)
    (hfit : ∀ pre, pre <+: pieces → (render (pre.foldl follow cs)).length ≤ 119) :
    ∃ s', (pieces.filter (· ≠ [])).foldlM resolveComp s = .ok s' ∧
      Holds s' (pieces.foldl follow cs) := by
  induction pieces generalizing s cs with
  | nil => exact ⟨s, rfl, h⟩
  | cons comp pieces ih =>
      have hrest : ∀ c ∈ pieces, slash ∉ c ∧ utf8Valid c = true := fun c hc => hp c (by simp [hc])
      have hfit' (pre : List (List UInt8)) (hpre : pre <+: pieces) :
          (render (pre.foldl follow (follow cs comp))).length ≤ 119 :=
        hfit (comp :: pre) (List.cons_prefix_cons.mpr ⟨rfl, hpre⟩)
      by_cases hne : comp = []
      · have hstay : follow cs comp = cs := if_pos (.inl hne)
        rw [List.filter_cons_of_neg (by simp [hne]), List.foldl_cons, hstay]
        rw [hstay] at hfit'
        exact ih h hrest hfit'
      · obtain ⟨hslash, hutf8⟩ := hp comp (by simp)
        obtain ⟨t, ht, hholds⟩ := resolveComp_exact h hne hslash hutf8 (hfit' [] (by simp))
        obtain ⟨s', hs', hend⟩ := ih hholds hrest hfit'
        refine ⟨s', ?_, hend⟩
        rw [List.filter_cons_of_pos (by simp [hne])]
        simp only [List.foldlM_cons, ht, bind, Except.bind]
        exact hs'

namespace Cwd

variable {cwd : Cwd}

theorem start_exact (hn : Normal cwd.path) (hl : cwd.len ≤ 119) (path : List UInt8) (out : Buf) :
    ∃ s, cwd.start path out = .ok s ∧ Holds s (origin cwd.path path) := by
  by_cases habs : path.head? = some slash
  · obtain ⟨b, hb, htext⟩ := out.copy_ok (i := 0) (l := [slash]) (by simp)
    refine ⟨(b, 1), ?_, ?_, by simp, ?_⟩
    · simp only [start, ne_eq, habs, not_true_eq_false, if_false, hb, bind, Except.bind, pure,
        Except.pure]
    · rw [origin, if_pos habs]
      exact htext
    · rw [origin, if_pos habs]
      exact nofun
  · have hlen : cwd.path.length = cwd.len := Buf.length_take (by omega)
    obtain ⟨b, hb, htext⟩ := out.copy_ok (i := 0) (l := cwd.path) (by omega)
    obtain ⟨cs, hcs, hpath⟩ := hn
    have horigin : origin cwd.path path = cs := by
      rw [origin, if_neg habs, hpath, components_render hcs]
    rw [horigin]
    refine ⟨(b, cwd.len), ?_, ?_, hl, hcs⟩
    · have hup : cwd.buf.upTo cwd.len = .ok cwd.path := Buf.upTo_ok (by omega)
      simp only [start, ne_eq, habs, not_false_eq_true, if_true, hup, hb, bind, Except.bind, pure,
        Except.pure]
    · rw [Nat.zero_add, hlen] at htext
      rw [htext, ← hpath]
      rfl

theorem resolve_safe (hn : Normal cwd.path) (hl : cwd.len ≤ 119) (path : List UInt8) (out : Buf) :
    ∃ r, cwd.resolve path out = .ok r ∧ r.length ≤ 119 := by
  obtain ⟨s, hs, hholds⟩ := start_exact hn hl path out
  have hs1 : 1 ≤ s.2 := by
    rw [← hholds.len, render, List.length_cons]
    omega
  obtain ⟨⟨b, len⟩, hloop, hlen1, hlen2⟩ := loop_safe (components path) hs1 hholds.le
  simp only at hlen1 hlen2
  refine ⟨if utf8Valid (b.bytes.take len) then b.bytes.take len else [slash], ?_, ?_⟩
  · simp only [resolve, hs, hloop, bind, Except.bind, if_neg (show ¬ len = 0 by omega)]
    exact Buf.text_ok (by omega)
  · split_ifs
    · rw [Buf.length_take (by omega)]
      exact hlen2
    · simp

theorem resolve_exact (hn : Normal cwd.path) (hl : cwd.len ≤ 119) {path : List UInt8}
    (hp : utf8Valid path = true) (hfit : FitsIn cwd.path path) (out : Buf) :
    cwd.resolve path out = .ok (reference cwd.path path) ∧ Normal (reference cwd.path path) := by
  obtain ⟨s, hs, hholds⟩ := start_exact hn hl path out
  obtain ⟨⟨b, len⟩, hloop, hend⟩ := loop_exact hholds (fun c hc => piece_spec hp hc) hfit
  have htext := hend.text
  have hlen := hend.len
  have hle := hend.le
  simp only at htext hlen hle
  refine ⟨?_, _, hend.names, rfl⟩
  have hpos : ¬ len = 0 := by
    rw [← hlen, render, List.length_cons]
    omega
  simp only [resolve, components, hs, hloop, bind, Except.bind, if_neg hpos]
  rw [Buf.text_ok (by omega), htext, utf8Valid_render hend.names, if_pos rfl]
  rfl

end Cwd

/-! ## Sessions -/

/-- A `cd` command and what opening a directory answers at that time. -/
structure CdOp where
  arg : List UInt8
  fd : List UInt8 → ℤ

/-- The path that `cd` resolves. -/
def CdOp.target (op : CdOp) : List UInt8 := if op.arg = [] then [slash] else op.arg

/-- The working directories that sessions of `cd` commands reach, as long as the paths are
text and fit. -/
def CdReaches : Cwd → Cwd → Prop :=
  Runs (fun (op : CdOp) c c' => c.cd op.arg op.fd = .ok c')
    fun op c => utf8Valid op.target = true ∧ FitsIn c.path op.target

namespace Cwd

variable {cwd : Cwd}

theorem cd_safe (hn : Normal cwd.path) (hl : cwd.len ≤ 119) (op : CdOp) :
    ∃ c, cwd.cd op.arg op.fd = .ok c := by
  obtain ⟨r, hr, hlen⟩ := resolve_safe hn hl op.target .zero
  rw [CdOp.target] at hr
  by_cases hfd : op.fd r < 0
  · exact ⟨cwd, by simp only [cd, hr, hfd, if_true, bind, Except.bind, pure, Except.pure]⟩
  · obtain ⟨b, hb, -⟩ := cwd.buf.copy_ok (i := 0) (l := r) (by omega)
    refine ⟨⟨b, r.length⟩, ?_⟩
    simp only [cd, hr, hfd, if_false, hb, bind, Except.bind, pure, Except.pure]

theorem cd_normal (hn : Normal cwd.path) (hl : cwd.len ≤ 119) {op : CdOp} {c : Cwd}
    (hp : utf8Valid op.target = true) (hfit : FitsIn cwd.path op.target)
    (hcd : cwd.cd op.arg op.fd = .ok c) : Normal c.path ∧ c.len ≤ 119 := by
  obtain ⟨hr, hnormal⟩ := resolve_exact hn hl hp hfit .zero
  obtain ⟨r, hr', hlen⟩ := resolve_safe hn hl op.target .zero
  obtain rfl : reference cwd.path op.target = r := by
    rw [hr] at hr'
    exact Except.ok.inj hr'
  rw [CdOp.target] at hr
  simp only [cd, hr, bind, Except.bind, pure, Except.pure] at hcd
  by_cases hfd : op.fd (reference cwd.path op.target) < 0
  · rw [CdOp.target] at hfd
    rw [if_pos hfd, Except.ok.injEq] at hcd
    exact hcd ▸ ⟨hn, hl⟩
  · obtain ⟨b, hb, htext⟩ := cwd.buf.copy_ok (i := 0) (l := reference cwd.path op.target)
      (by omega)
    rw [Nat.zero_add] at htext
    rw [CdOp.target] at hfd hb htext hnormal hlen
    rw [if_neg hfd, hb, Except.ok.injEq] at hcd
    subst hcd
    refine ⟨?_, hlen⟩
    rw [Cwd.path, htext]
    exact hnormal

theorem new_normal : Normal new.path := ⟨[], nofun, rfl⟩

end Cwd

/-- At a normalized working directory of at most 119 bytes, resolving a path never leaves
the buffer; a path whose intermediate results fit is resolved as the reference says; and
every session of `cd` commands with such paths stays at normalized directories. -/
theorem resolve_correct {cwd : Cwd} (hn : Normal cwd.path) (hl : cwd.len ≤ 119) :
    (∀ path out, utf8Valid path = true → ∃ r, cwd.resolve path out = .ok r) ∧
    (∀ path out, utf8Valid path = true → FitsIn cwd.path path →
      cwd.resolve path out = .ok (reference cwd.path path)) ∧
    ∀ c, CdReaches cwd c → Normal c.path ∧ c.len ≤ 119 ∧
      ∀ op : CdOp, ∃ c', c.cd op.arg op.fd = .ok c' := by
  refine ⟨fun path out _ => ?_, fun path out hp hfit => (cwd.resolve_exact hn hl hp hfit out).1,
    fun c hr => ?_⟩
  · obtain ⟨r, hr, -⟩ := cwd.resolve_safe hn hl path out
    exact ⟨r, hr⟩
  · have hinv : Normal c.path ∧ c.len ≤ 119 :=
      hr.invariant (I := fun c => Normal c.path ∧ c.len ≤ 119) ⟨hn, hl⟩
        fun op c c' hop hcd hc => Cwd.cd_normal hc.1 hc.2 hop.1 hop.2 hcd
    exact ⟨hinv.1, hinv.2, Cwd.cd_safe hinv.1 hinv.2⟩

/-- At the root, `../b` is `/b`. -/
theorem resolve_correct_root :
    Cwd.new.resolve [dot, dot, slash, 0x62] .zero = .ok [slash, 0x62] := by
  have hpre : ∀ pre ∈ ([dot, dot, slash, 0x62].splitOn slash).inits,
      (render (pre.foldl follow (origin Cwd.new.path [dot, dot, slash, 0x62]))).length ≤ 119 := by
    decide
  obtain ⟨-, hexact, -⟩ := resolve_correct Cwd.new_normal (by decide)
  refine hexact [dot, dot, slash, 0x62] .zero (by decide) fun pre h => ?_
  exact hpre pre ((List.mem_inits ..).mpr h)

end LightOS.Shell
