import DotEmacs.Elisp.Object
import DotEmacs.Elisp.Text

/-!
# Comment boxes that reach the fill column

`comment-box-with-fill-column` pads the first line of a region with spaces and calls `comment-box`
on the region. It goes to the end of the line on which the region begins, and inserts the spaces
there; the end of the region is a marker that moves along. When the region ends inside that line,
the spaces come to stand behind the region instead of in it. So the function does what it is for
exactly when the region reaches the end of its first line, or when no spaces are needed because
the region reaches the fill column anyway.

What `comment-box` makes of a region is left open, as long as it changes nothing else.

## Main definitions

* `Comment.Region`: a text with a region.
* `Comment.regionAtCommentBox`: the text and the region at the call of `comment-box`.
* `Comment.commentBoxWithFillColumn`: the function, with the text and the point that it leaves.
* `Comment.PadsRegion`: the region is padded, and nothing else.

## Main results

* `Comment.regionAtCommentBox_of_reaches`, `Comment.regionAtCommentBox_of_not_reaches`: where the
  spaces come to stand.
* `Comment.padsRegion_iff`: when the region is padded, and nothing else.
-/

namespace DotEmacs.Comment

open Elisp

/-! ### Regions -/

/-- A text with a region: what is before, inside and after it. -/
structure Region where
  before : List Char
  inside : List Char
  after : List Char
  deriving DecidableEq

namespace Region

variable (r : Region)

def text : List Char := r.before ++ r.inside ++ r.after

/-- The beginning of the region. -/
def b : ℕ := r.before.length

/-- The end of the region. -/
def e : ℕ := r.before.length + r.inside.length

/-- The region of a text between two positions. -/
def ofText (text : List Char) (b e : ℕ) : Region :=
  ⟨text.take b, (text.take e).drop b, text.drop e⟩

theorem ofText_eq {text x y z : List Char} {b e : ℕ} (htext : text = x ++ y ++ z)
    (hb : b = x.length) (he : e = x.length + y.length) : ofText text b e = ⟨x, y, z⟩ := by
  rw [← List.length_append] at he
  rw [ofText, htext, hb, he, List.take_left, List.drop_left, List.drop_left, List.append_assoc,
    List.take_left]

end Region

/-! ### The function -/

variable (d : Display) (fillColumn : ℤ) (r : Region)

/-- The text and the region at the call of `comment-box`.

Source: `init/programming/comment/init-prog-comment.el`, lines 34–37. -/
def regionAtCommentBox : Region :=
  let eol := endOfLine r.text r.b
  let currentColumn := d.column (r.text.take eol)
  let padding := List.replicate (fillColumn - currentColumn).toNat ' '
  .ofText (insertText r.text eol padding) r.b (markerAfterInsert r.e eol padding.length)

/-- `comment-box-with-fill-column`: the text and the point that it leaves. The function
`commentBox` gives the text that takes the place of the region; the marker at the end of the
region is then at the end of that text.

Source: `init/programming/comment/init-prog-comment.el`, lines 28–40. -/
def commentBoxWithFillColumn
    (commentBox : List Char → List Char → List Char → Except Signal (List Char)) :
    Except Signal (List Char × ℕ) := do
  let region := regionAtCommentBox d fillColumn r
  let box ← commentBox region.before region.inside region.after
  return (region.before ++ box ++ region.after, region.b + box.length)

/-- The column at which the first line of the region ends. -/
def firstLineColumn : ℕ := d.column (r.before ++ firstLine r.inside)

@[simp] theorem firstLineColumn_mk (x y z : List Char) :
    firstLineColumn d ⟨x, y, z⟩ = d.column (x ++ firstLine y) := rfl

/-- The region is padded, and nothing else: at the call of `comment-box` its first line ends at the
fill column, or where it ended before if that is further to the right; the text before and after
it is as before; its own text is as before with spaces inserted; and after the call the point is
right behind the box. -/
structure PadsRegion : Prop where
  firstLineColumn_eq : (firstLineColumn d (regionAtCommentBox d fillColumn r) : ℤ) =
    max (firstLineColumn d r : ℤ) fillColumn
  before_eq : (regionAtCommentBox d fillColumn r).before = r.before
  after_eq : (regionAtCommentBox d fillColumn r).after = r.after
  inside_eq : ∃ x y n, r.inside = x ++ y ∧
    (regionAtCommentBox d fillColumn r).inside = x ++ List.replicate n ' ' ++ y
  point_eq : ∀ commentBox text point,
    commentBoxWithFillColumn d fillColumn r commentBox = .ok (text, point) →
    ∃ box, text = r.before ++ box ++ r.after ∧ point = (r.before ++ box).length

/-- The region reaches the end of the line on which it begins. -/
def ReachesLineEnd : Prop := endOfLine r.text r.b ≤ r.e

/-! ### Where the spaces come to stand -/

/-- The line on which the region begins, from the beginning of the region on. -/
def lineFromRegion : List Char := firstLine (r.inside ++ r.after)

theorem endOfLine_text : endOfLine r.text r.b = (r.before ++ lineFromRegion r).length := by
  rw [Region.text, List.append_assoc]
  exact endOfLine_append r.before (r.inside ++ r.after)

theorem reachesLineEnd_iff : ReachesLineEnd r ↔ (lineFromRegion r).length ≤ r.inside.length := by
  rw [ReachesLineEnd, endOfLine_text, List.length_append, Region.e]
  omega

/-- Either the region reaches the end of its first line, or it lies in that line. -/
theorem reachesLineEnd_or :
    ReachesLineEnd r ∧ lineFromRegion r = firstLine r.inside ∨
      ¬ ReachesLineEnd r ∧ lineFromRegion r = r.inside ++ firstLine r.after := by
  rw [reachesLineEnd_iff]
  obtain ⟨rest, hinside, rfl | ⟨rest', rfl⟩⟩ := exists_eq_firstLine_append r.inside
  · rw [List.append_nil] at hinside
    have hline : lineFromRegion r = r.inside ++ firstLine r.after := by
      refine firstLine_append_of_notMem ?_ r.after
      rw [hinside]
      exact newline_notMem_firstLine r.inside
    by_cases hafter : firstLine r.after = []
    · rw [hafter, List.append_nil] at hline
      rw [hline]
      exact Or.inl ⟨Nat.le_refl _, hinside⟩
    · have hpos := List.length_pos_of_ne_nil hafter
      refine Or.inr ⟨?_, hline⟩
      rw [hline, List.length_append]
      omega
  · have hline : lineFromRegion r = firstLine r.inside := by
      have hnil : firstLine ('\n' :: rest' ++ r.after) = [] := rfl
      rw [lineFromRegion]
      nth_rewrite 1 [hinside]
      rw [List.append_assoc, firstLine_append_of_notMem (newline_notMem_firstLine r.inside), hnil,
        List.append_nil]
    have hlength := congrArg List.length hinside
    rw [List.length_append] at hlength
    rw [hline]
    exact Or.inl ⟨by omega, rfl⟩

/-- The text with the spaces inserted, and the region in it. -/
theorem regionAtCommentBox_eq {rest : List Char}
    (hrest : r.inside ++ r.after = lineFromRegion r ++ rest) :
    regionAtCommentBox d fillColumn r =
      .ofText (r.before ++ lineFromRegion r ++ List.replicate
          (fillColumn - d.column (r.before ++ lineFromRegion r)).toNat ' ' ++ rest) r.b
        (markerAfterInsert r.e (r.before ++ lineFromRegion r).length
          (fillColumn - d.column (r.before ++ lineFromRegion r)).toNat) := by
  have htext : r.text = (r.before ++ lineFromRegion r) ++ rest := by
    rw [Region.text, List.append_assoc, hrest, List.append_assoc]
  rw [regionAtCommentBox, endOfLine_text, htext, List.take_left, insertText_append,
    List.length_replicate]

/-- A region that reaches the end of its first line gets the spaces there. -/
theorem regionAtCommentBox_of_reaches (h : ReachesLineEnd r)
    (hline : lineFromRegion r = firstLine r.inside) :
    ∃ rest, r.inside = firstLine r.inside ++ rest ∧ firstLine rest = [] ∧
      regionAtCommentBox d fillColumn r = ⟨r.before, firstLine r.inside ++ List.replicate
        (fillColumn - d.column (r.before ++ firstLine r.inside)).toNat ' ' ++ rest, r.after⟩ := by
  obtain ⟨rest, hinside, hrest⟩ := exists_eq_firstLine_append r.inside
  have hnil : firstLine rest = [] := by
    rcases hrest with rfl | ⟨rest', rfl⟩ <;> rfl
  refine ⟨rest, hinside, hnil, ?_⟩
  have hsplit : r.inside ++ r.after = lineFromRegion r ++ (rest ++ r.after) := by
    rw [hline, ← List.append_assoc, ← hinside]
  rw [ReachesLineEnd, endOfLine_text] at h
  rw [regionAtCommentBox_eq d fillColumn r hsplit, markerAfterInsert, if_pos h, hline]
  refine Region.ofText_eq (by simp only [List.append_assoc]) rfl ?_
  have hlength := congrArg List.length hinside
  rw [List.length_append] at hlength
  rw [Region.e, List.length_append, List.length_append, List.length_replicate]
  omega

/-- A region that lies in its first line gets the spaces behind it. -/
theorem regionAtCommentBox_of_not_reaches (h : ¬ ReachesLineEnd r)
    (hline : lineFromRegion r = r.inside ++ firstLine r.after) :
    ∃ rest, r.after = firstLine r.after ++ rest ∧
      regionAtCommentBox d fillColumn r = ⟨r.before, r.inside, firstLine r.after ++ List.replicate
        (fillColumn - d.column (r.before ++ r.inside ++ firstLine r.after)).toNat ' ' ++ rest⟩ := by
  obtain ⟨rest, hafter, -⟩ := exists_eq_firstLine_append r.after
  refine ⟨rest, hafter, ?_⟩
  have hsplit : r.inside ++ r.after = lineFromRegion r ++ rest := by
    rw [hline, List.append_assoc, ← hafter]
  rw [ReachesLineEnd, endOfLine_text] at h
  rw [regionAtCommentBox_eq d fillColumn r hsplit, markerAfterInsert, if_neg h, hline,
    ← List.append_assoc r.before]
  exact Region.ofText_eq (by simp only [List.append_assoc]) rfl rfl

/-! ### Padding -/

/-- Where the region is the given one, the point is right behind the box. -/
theorem point_of_regionAtCommentBox {before inside after : List Char}
    {commentBox : List Char → List Char → List Char → Except Signal (List Char)}
    {text : List Char} {point : ℕ}
    (hregion : regionAtCommentBox d fillColumn r = ⟨before, inside, after⟩)
    (h : commentBoxWithFillColumn d fillColumn r commentBox = .ok (text, point)) :
    ∃ box, text = before ++ box ++ after ∧ point = (before ++ box).length := by
  rw [commentBoxWithFillColumn, hregion] at h
  cases hbox : commentBox before inside after with
  | error e =>
      simp only [hbox] at h
      cases h
  | ok box =>
      simp only [hbox] at h
      obtain ⟨rfl, rfl⟩ := Prod.mk.inj (Except.ok.inj h)
      exact ⟨box, rfl, List.length_append.symm⟩

theorem padsRegion_of_reaches (h : ReachesLineEnd r)
    (hline : lineFromRegion r = firstLine r.inside) : PadsRegion d fillColumn r := by
  obtain ⟨rest, hinside, hnil, hregion⟩ := regionAtCommentBox_of_reaches d fillColumn r h hline
  refine ⟨?_, by rw [hregion], by rw [hregion], ⟨_, rest, _, hinside, by rw [hregion]⟩,
    fun _ _ _ => point_of_regionAtCommentBox d fillColumn r hregion⟩
  have hnewline : '\n' ∉ firstLine r.inside ++ List.replicate
      (fillColumn - d.column (r.before ++ firstLine r.inside)).toNat ' ' := by
    rw [List.mem_append, not_or]
    exact ⟨newline_notMem_firstLine r.inside, by simp [List.mem_replicate]⟩
  rw [hregion, firstLineColumn_mk, firstLine_append_of_notMem hnewline, hnil, List.append_nil,
    ← List.append_assoc, Display.column_append_spaces, firstLineColumn]
  omega

theorem padsRegion_iff_of_not_reaches (h : ¬ ReachesLineEnd r)
    (hline : lineFromRegion r = r.inside ++ firstLine r.after) :
    PadsRegion d fillColumn r ↔ fillColumn ≤ d.column (r.before ++ r.inside) := by
  obtain ⟨rest, hafter, hregion⟩ := regionAtCommentBox_of_not_reaches d fillColumn r h hline
  have hnewline : '\n' ∉ r.inside := by
    intro hmem
    refine newline_notMem_firstLine (r.inside ++ r.after) ?_
    rw [← lineFromRegion, hline]
    exact List.mem_append_left _ hmem
  have hcolumn : firstLineColumn d r = d.column (r.before ++ r.inside) := by
    rw [firstLineColumn, firstLine_of_notMem hnewline]
  constructor
  · intro hpads
    have hmax := hpads.firstLineColumn_eq
    rw [hregion, firstLineColumn_mk, firstLine_of_notMem hnewline, hcolumn] at hmax
    omega
  · intro hle
    -- the line is long enough in front of its end, so that there are no spaces to insert
    have hgrows := d.column_le_column_append (r.before ++ r.inside)
      (newline_notMem_firstLine r.after)
    have hzero : (fillColumn - d.column (r.before ++ r.inside ++ firstLine r.after)).toNat = 0 := by
      omega
    rw [hzero, List.replicate_zero, List.append_nil, ← hafter] at hregion
    refine ⟨?_, by rw [hregion], by rw [hregion], ⟨r.inside, [], 0, by simp, by simp [hregion]⟩,
      fun _ _ _ => point_of_regionAtCommentBox d fillColumn r hregion⟩
    rw [hregion, firstLineColumn_mk, firstLine_of_notMem hnewline]
    omega

/-- **Padding a region.** The region is padded, and nothing else, exactly when it reaches the end of
its first line, or reaches the fill column in it. -/
theorem padsRegion_iff : PadsRegion d fillColumn r ↔
    ReachesLineEnd r ∨ fillColumn ≤ d.column (r.before ++ r.inside) := by
  rcases reachesLineEnd_or r with ⟨h, hline⟩ | ⟨h, hline⟩
  · exact ⟨fun _ => Or.inl h, fun _ => padsRegion_of_reaches d fillColumn r h hline⟩
  · rw [or_iff_right h]
    exact padsRegion_iff_of_not_reaches d fillColumn r h hline

/-- A region inside a line, in front of its end. -/
theorem not_padsRegion_inside_line :
    ¬ PadsRegion ⟨8, by decide, fun _ => 1, rfl⟩ 5 ⟨[], ['a'], ['b']⟩ := by
  intro h
  exact absurd h.after_eq (by decide)

end DotEmacs.Comment
