import RuleHighlight.Render.Html
import RuleHighlight.Proofs.Render.Segment

/-!
A reader of markup: it takes a text apart into tags and characters, finds the spans among the tags,
and undoes the entities. It is strict, so what it reads has no stray bracket and no stray ampersand.
What is rendered of a text reads back as that text, with one element for each of its spans.
-/

namespace RuleHighlight

namespace Markup

inductive Token
  | tag (inner : List Char)
  | char (c : Char)
  deriving DecidableEq, Repr

namespace Token

def write : Token → List Char
  | tag inner => '<' :: (inner ++ ['>'])
  | char c => [c]

def char? : Token → Option Char
  | tag _ => none
  | char c => some c

def isTag : Token → Bool
  | tag _ => true
  | char _ => false

end Token

-- Within a tag, what it holds so far is kept.
def readFrom : Option (List Char) → List Char → Option (List Token)
  | none, [] => some []
  | some _, [] => none
  | none, c :: rest =>
    if c = '<' then readFrom (some []) rest
    else if c = '>' then none
    else (readFrom none rest).map (.char c :: ·)
  | some inner, c :: rest =>
    if c = '<' then none
    else if c = '>' then (readFrom none rest).map (.tag inner :: ·)
    else readFrom (some (inner ++ [c])) rest

def read (s : List Char) : Option (List Token) := readFrom none s

def unescape : List Char → Option (List Char)
  | [] => some []
  | '&' :: 'a' :: 'm' :: 'p' :: ';' :: rest => (unescape rest).map ('&' :: ·)
  | '&' :: 'l' :: 't' :: ';' :: rest => (unescape rest).map ('<' :: ·)
  | '&' :: 'g' :: 't' :: ';' :: rest => (unescape rest).map ('>' :: ·)
  | '&' :: 'q' :: 'u' :: 'o' :: 't' :: ';' :: rest => (unescape rest).map ('"' :: ·)
  | '&' :: '#' :: 'x' :: '2' :: '7' :: ';' :: rest => (unescape rest).map ('\'' :: ·)
  | '&' :: _ => none
  | c :: rest => (unescape rest).map (c :: ·)

def classAttribute : List Char := "span class=\"".toList

def spanEnd : List Char := "/span".toList

def classOf? (inner : List Char) : Option (List Char) :=
  let value := (inner.drop classAttribute.length).takeWhile (· ≠ '"')
  if inner = classAttribute ++ value ++ ['"'] then some value else none

/-- The class and the content of each span. Within one, both are kept as they are so far. -/
def elementsFrom :
    Option (List Char × List Char) → List Token → Option (List (List Char × List Char))
  | none, [] => some []
  | some _, [] => none
  | none, .char _ :: rest => elementsFrom none rest
  | none, .tag inner :: rest => elementsFrom ((classOf? inner).map (·, [])) rest
  | some (value, content), .char c :: rest => elementsFrom (some (value, content ++ [c])) rest
  | some (value, content), .tag inner :: rest =>
    if inner = spanEnd then (elementsFrom none rest).map ((value, content) :: ·) else none

def elements (ts : List Token) : Option (List (List Char × List Char)) := elementsFrom none ts

def isPlain (c : Char) : Bool := c != '<' && c != '>'

@[simp]
theorem isPlain_iff {c : Char} : isPlain c = true ↔ c ≠ '<' ∧ c ≠ '>' := by
  rw [isPlain, Bool.and_eq_true, bne_iff_ne, bne_iff_ne]

def Token.Clean : Token → Prop
  | .tag inner => ∀ c ∈ inner, isPlain c = true
  | .char c => isPlain c = true

theorem readFrom_tag {inner : List Char} (h : ∀ c ∈ inner, isPlain c = true) (seen rest : List Char) :
    readFrom (some seen) (inner ++ '>' :: rest) =
      (readFrom none rest).map (.tag (seen ++ inner) :: ·) := by
  induction inner generalizing seen with
  | nil => simp [readFrom]
  | cons c inner ih =>
    obtain ⟨hc, hinner⟩ := List.forall_mem_cons.mp h
    obtain ⟨hopen, hclose⟩ := isPlain_iff.mp hc
    rw [List.cons_append, readFrom, if_neg hopen, if_neg hclose, ih hinner, List.append_assoc,
      List.singleton_append]

theorem read_write {ts : List Token} (h : ∀ t ∈ ts, t.Clean) :
    read (ts.flatMap Token.write) = some ts := by
  induction ts with
  | nil => rfl
  | cons t ts ih =>
    obtain ⟨ht, hts⟩ := List.forall_mem_cons.mp h
    have hrest : readFrom none (ts.flatMap Token.write) = some ts := ih hts
    rw [List.flatMap_cons]
    cases t with
    | tag inner =>
      have htag := readFrom_tag ht [] (ts.flatMap Token.write)
      rw [hrest] at htag
      rw [Token.write, List.cons_append, List.append_assoc, List.singleton_append]
      exact htag
    | char c =>
      obtain ⟨hopen, hclose⟩ := isPlain_iff.mp ht
      rw [Token.write, List.singleton_append, read, readFrom, if_neg hopen, if_neg hclose, hrest]
      rfl

theorem unescape_cons {c : Char} (h : c ≠ '&') (rest : List Char) :
    unescape (c :: rest) = (unescape rest).map (c :: ·) := by
  conv_lhs => unfold unescape
  split <;> simp_all

theorem unescape_escape (c : Char) (rest : List Char) :
    unescape (Html.escape c ++ rest) = (unescape rest).map (c :: ·) := by
  rw [Html.escape]
  split_ifs with hamp hlt hgt
  · subst hamp
    rfl
  · subst hlt
    rfl
  · subst hgt
    rfl
  · exact unescape_cons hamp rest

theorem unescape_escapeAttribute (c : Char) (rest : List Char) :
    unescape (Html.escapeAttribute c ++ rest) = (unescape rest).map (c :: ·) := by
  rw [Html.escapeAttribute]
  split_ifs with hdouble hsingle
  · subst hdouble
    rfl
  · subst hsingle
    rfl
  · exact unescape_escape c rest

theorem unescape_flatMap {f : Char → List Char}
    (hf : ∀ c rest, unescape (f c ++ rest) = (unescape rest).map (c :: ·)) (cs : List Char) :
    unescape (cs.flatMap f) = some cs := by
  induction cs with
  | nil => rfl
  | cons c cs ih => rw [List.flatMap_cons, hf, ih, Option.map_some]

theorem mem_escape {c d : Char} (h : d ∈ Html.escape c) :
    d ∈ "&amp;".toList ++ "&lt;".toList ++ "&gt;".toList ∨ d = c ∧ isPlain c = true := by
  rw [Html.escape] at h
  split_ifs at h with hamp hlt hgt
  · exact Or.inl (List.mem_append_left _ (List.mem_append_left _ h))
  · exact Or.inl (List.mem_append_left _ (List.mem_append_right _ h))
  · exact Or.inl (List.mem_append_right _ h)
  · exact Or.inr ⟨List.mem_singleton.mp h, isPlain_iff.mpr ⟨hlt, hgt⟩⟩

theorem isPlain_of_mem_escape {c d : Char} (h : d ∈ Html.escape c) : isPlain d = true := by
  have hentities : ∀ e ∈ "&amp;".toList ++ "&lt;".toList ++ "&gt;".toList, isPlain e = true :=
    List.all_eq_true.mp rfl
  rcases mem_escape h with hd | ⟨rfl, hd⟩
  · exact hentities d hd
  · exact hd

theorem ne_quote_of_mem_escape {c d : Char} (hc : c ≠ '"') (h : d ∈ Html.escape c) : d ≠ '"' := by
  have hentities : ∀ e ∈ "&amp;".toList ++ "&lt;".toList ++ "&gt;".toList, (e != '"') = true :=
    List.all_eq_true.mp rfl
  rcases mem_escape h with hd | ⟨rfl, -⟩
  · exact bne_iff_ne.mp (hentities d hd)
  · exact hc

theorem mem_escapeAttribute {c d : Char} (h : d ∈ Html.escapeAttribute c) :
    isPlain d = true ∧ d ≠ '"' := by
  have hquotes : ∀ e ∈ "&quot;".toList ++ "&#x27;".toList, (isPlain e && e != '"') = true :=
    List.all_eq_true.mp rfl
  have hquote (hd : d ∈ "&quot;".toList ++ "&#x27;".toList) : isPlain d = true ∧ d ≠ '"' := by
    have hboth := hquotes d hd
    rwa [Bool.and_eq_true, bne_iff_ne] at hboth
  rw [Html.escapeAttribute] at h
  split_ifs at h with hdouble hsingle
  · exact hquote (List.mem_append_left _ h)
  · exact hquote (List.mem_append_right _ h)
  · exact ⟨isPlain_of_mem_escape h, ne_quote_of_mem_escape hdouble h⟩

def attributeValue (cssClass : String) : List Char := cssClass.toList.flatMap Html.escapeAttribute

def content (chunk : List Char) : List Token := (chunk.flatMap Html.escape).map .char

def spanStart (cssClass : String) : Token := .tag (classAttribute ++ attributeValue cssClass ++ ['"'])

def segmentTokens (styles : Category → Style) (s : Segment) : List Token :=
  match s.category with
  | none => content s.chunk
  | some c => spanStart (styles c).cssClass :: (content s.chunk ++ [.tag spanEnd])

def headerTokens : List Token := [.tag "pre class=\"cm-yara\"".toList, .tag "code".toList]

def footerTokens : List Token := [.tag "/code".toList, .tag "/pre".toList]

def pageTokens (styles : Category → Style) (text : List Char) (spans : List Span) : List Token :=
  headerTokens ++ (Segment.list text spans).flatMap (segmentTokens styles) ++ footerTokens

@[simp]
theorem write_content (chunk : List Char) :
    (content chunk).flatMap Token.write = chunk.flatMap Html.escape := by
  rw [content, List.flatMap_map]
  exact List.flatMap_singleton' _

theorem write_spanStart (cssClass : String) : (spanStart cssClass).write = Html.openTag cssClass := by
  have hopen : "<span class=\"".toList = '<' :: classAttribute := by decide
  have hclose : "\">".toList = ['"'] ++ ['>'] := by decide
  have htag : Html.openTag cssClass =
      '<' :: classAttribute ++ attributeValue cssClass ++ (['"'] ++ ['>']) :=
    congrArg₂ (fun front back => front ++ attributeValue cssClass ++ back) hopen hclose
  rw [htag, spanStart, Token.write, ← List.append_assoc]
  simp only [List.cons_append]

theorem paint_eq_write (styles : Category → Style) (s : Segment) :
    Html.paint (.full styles) s = pure ((segmentTokens styles s).flatMap Token.write) := by
  obtain ⟨chunk, category⟩ := s
  cases category with
  | none => rw [segmentTokens, write_content]; rfl
  | some c =>
    rw [segmentTokens, List.flatMap_cons, List.flatMap_append, write_content, write_spanStart,
      ← List.append_assoc]
    rfl

theorem render_eq_write (styles : Category → Style) (text : List Char) (spans : List Span) :
    Html.render (.full styles) text spans =
      .ok ((pageTokens styles text spans).flatMap Token.write) := by
  have hpaint : Html.paint (.full styles) =
      fun s => pure ((segmentTokens styles s).flatMap Token.write) := funext (paint_eq_write styles)
  have hheader : headerTokens.flatMap Token.write = Html.header := rfl
  have hfooter : footerTokens.flatMap Token.write = Html.footer := rfl
  rw [Html.render, hpaint, List.mapM_pure, pageTokens, List.flatMap_append, List.flatMap_append,
    hheader, hfooter, List.flatMap_assoc, List.flatMap_def]
  rfl

theorem clean_of_mem_content {chunk : List Char} {t : Token} (h : t ∈ content chunk) : t.Clean := by
  obtain ⟨c, hc, rfl⟩ := List.mem_map.mp h
  obtain ⟨d, -, hd⟩ := List.mem_flatMap.mp hc
  exact isPlain_of_mem_escape hd

theorem clean_spanStart (cssClass : String) : (spanStart cssClass).Clean := by
  have hname : ∀ c ∈ classAttribute, isPlain c = true := List.all_eq_true.mp rfl
  have hquote : ∀ c ∈ ['"'], isPlain c = true := List.all_eq_true.mp rfl
  intro c hc
  rcases List.mem_append.mp hc with hc | hc
  · rcases List.mem_append.mp hc with hc | hc
    · exact hname c hc
    · obtain ⟨d, -, hd⟩ := List.mem_flatMap.mp hc
      exact (mem_escapeAttribute hd).1
  · exact hquote c hc

theorem clean_spanEnd : (Token.tag spanEnd).Clean :=
  List.all_eq_true.mp rfl

theorem clean_of_mem_headerTokens : ∀ t ∈ headerTokens, t.Clean := by
  have hstart : (Token.tag "pre class=\"cm-yara\"".toList).Clean := List.all_eq_true.mp rfl
  have hcode : (Token.tag "code".toList).Clean := List.all_eq_true.mp rfl
  simp only [headerTokens, List.forall_mem_cons, List.not_mem_nil, false_imp_iff, implies_true,
    and_true]
  exact ⟨hstart, hcode⟩

theorem clean_of_mem_footerTokens : ∀ t ∈ footerTokens, t.Clean := by
  have hcode : (Token.tag "/code".toList).Clean := List.all_eq_true.mp rfl
  have hend : (Token.tag "/pre".toList).Clean := List.all_eq_true.mp rfl
  simp only [footerTokens, List.forall_mem_cons, List.not_mem_nil, false_imp_iff, implies_true,
    and_true]
  exact ⟨hcode, hend⟩

theorem clean_of_mem_segmentTokens {styles : Category → Style} {s : Segment} {t : Token}
    (h : t ∈ segmentTokens styles s) : t.Clean := by
  rw [segmentTokens] at h
  split at h
  · exact clean_of_mem_content h
  · rcases List.mem_cons.mp h with rfl | h
    · exact clean_spanStart _
    · rcases List.mem_append.mp h with h | h
      · exact clean_of_mem_content h
      · obtain rfl := List.mem_singleton.mp h
        exact clean_spanEnd

theorem clean_of_mem_pageTokens {styles : Category → Style} {text : List Char} {spans : List Span}
    {t : Token} (h : t ∈ pageTokens styles text spans) : t.Clean := by
  rw [pageTokens, List.mem_append, List.mem_append] at h
  rcases h with (h | h) | h
  · exact clean_of_mem_headerTokens t h
  · obtain ⟨s, -, hs⟩ := List.mem_flatMap.mp h
    exact clean_of_mem_segmentTokens hs
  · exact clean_of_mem_footerTokens t h

@[simp]
theorem filterMap_char?_content (chunk : List Char) :
    (content chunk).filterMap Token.char? = chunk.flatMap Html.escape := by
  rw [content, List.filterMap_map]
  exact List.filterMap_some

@[simp]
theorem filter_isTag_content (chunk : List Char) : (content chunk).filter Token.isTag = [] := by
  rw [content, List.filter_map]
  simp [Token.isTag, Function.comp_def]

theorem filterMap_char?_segmentTokens (styles : Category → Style) (s : Segment) :
    (segmentTokens styles s).filterMap Token.char? = s.chunk.flatMap Html.escape := by
  rw [segmentTokens]
  split
  · exact filterMap_char?_content s.chunk
  · have hstart (cssClass : String) : (spanStart cssClass).char? = none := rfl
    rw [List.filterMap_cons_none (hstart _), List.filterMap_append, filterMap_char?_content]
    exact List.append_nil _

theorem characters_pageTokens {styles : Category → Style} {text : List Char} {spans : List Span}
    (h : Span.Laid text spans) :
    (pageTokens styles text spans).filterMap Token.char? = text.flatMap Html.escape := by
  have hheader : headerTokens.filterMap Token.char? = [] := rfl
  have hfooter : footerTokens.filterMap Token.char? = [] := rfl
  have hsegments : (fun s => (segmentTokens styles s).filterMap Token.char?) =
      fun s : Segment => s.chunk.flatMap Html.escape := funext (filterMap_char?_segmentTokens styles)
  calc (pageTokens styles text spans).filterMap Token.char?
    _ = (Segment.list text spans).flatMap (fun s => s.chunk.flatMap Html.escape) := by
      rw [pageTokens, List.filterMap_append, List.filterMap_append, hheader, hfooter,
        List.append_nil, List.nil_append, List.filterMap_flatMap, hsegments]
    _ = ((Segment.list text spans).flatMap Segment.chunk).flatMap Html.escape := by
      rw [List.flatMap_assoc]
    _ = text.flatMap Html.escape := by rw [Segment.chunks_list h]

theorem filter_isTag_segmentTokens (styles : Category → Style) (s : Segment) :
    (segmentTokens styles s).filter Token.isTag = s.marked.toList.flatMap
      (fun x => [spanStart (styles x.2).cssClass, .tag spanEnd]) := by
  obtain ⟨chunk, category⟩ := s
  cases category with
  | none => exact filter_isTag_content chunk
  | some c =>
    have hstart : (spanStart (styles c).cssClass).isTag = true := rfl
    rw [segmentTokens, List.filter_cons_of_pos hstart, List.filter_append, filter_isTag_content]
    rfl

theorem tags_pageTokens {styles : Category → Style} {text : List Char} {spans : List Span}
    (h : Span.Laid text spans) :
    (pageTokens styles text spans).filter Token.isTag = headerTokens ++
      spans.flatMap (fun s => [spanStart (styles s.category).cssClass, .tag spanEnd]) ++
        footerTokens := by
  have hheader : headerTokens.filter Token.isTag = headerTokens := rfl
  have hfooter : footerTokens.filter Token.isTag = footerTokens := rfl
  have hsegments : (fun s => (segmentTokens styles s).filter Token.isTag) =
      fun s : Segment => s.marked.toList.flatMap
        (fun x => [spanStart (styles x.2).cssClass, .tag spanEnd]) :=
    funext (filter_isTag_segmentTokens styles)
  rw [pageTokens, List.filter_append, List.filter_append, hheader, hfooter, List.filter_flatMap,
    hsegments, ← List.flatMap_assoc, ← List.filterMap_eq_flatMap_toList, Segment.marked_list h,
    List.flatMap_map]

theorem elementsFrom_content (chunk : List Char) (rest : List Token) :
    elementsFrom none (content chunk ++ rest) = elementsFrom none rest := by
  rw [content]
  generalize chunk.flatMap Html.escape = cs
  induction cs with
  | nil => rfl
  | cons c cs ih => exact ih

theorem elementsFrom_content_spanEnd (value chunk : List Char) (rest : List Token) :
    elementsFrom (some (value, [])) (content chunk ++ .tag spanEnd :: rest) =
      (elementsFrom none rest).map ((value, chunk.flatMap Html.escape) :: ·) := by
  -- by induction on the characters that are left, with those that are seen generalised
  have hcontent (cs seen : List Char) :
      elementsFrom (some (value, seen)) (cs.map .char ++ .tag spanEnd :: rest) =
        (elementsFrom none rest).map ((value, seen ++ cs) :: ·) := by
    induction cs generalizing seen with
    | nil =>
      rw [List.append_nil]
      exact if_pos rfl
    | cons c cs ih =>
      have hseen := ih (seen ++ [c])
      rw [List.append_assoc, List.singleton_append] at hseen
      exact hseen
  exact hcontent (chunk.flatMap Html.escape) []

theorem classOf?_spanStart (cssClass : String) :
    classOf? (classAttribute ++ attributeValue cssClass ++ ['"']) =
      some (attributeValue cssClass) := by
  have hquote : ∀ c ∈ attributeValue cssClass, decide (c ≠ '"') = true := by
    intro c hc
    obtain ⟨d, -, hd⟩ := List.mem_flatMap.mp hc
    exact decide_eq_true (mem_escapeAttribute hd).2
  have hvalue : (((classAttribute ++ attributeValue cssClass ++ ['"']).drop
      classAttribute.length).takeWhile (· ≠ '"')) = attributeValue cssClass := by
    rw [List.append_assoc, List.drop_left, List.takeWhile_append_of_pos hquote]
    exact List.append_nil _
  rw [classOf?]
  simp only [hvalue, if_true]

def element (styles : Category → Style) (x : List Char × Category) : List Char × List Char :=
  (attributeValue (styles x.2).cssClass, x.1.flatMap Html.escape)

theorem elementsFrom_segmentTokens (styles : Category → Style) (s : Segment) (rest : List Token) :
    elementsFrom none (segmentTokens styles s ++ rest) =
      (elementsFrom none rest).map (s.marked.toList.map (element styles) ++ ·) := by
  obtain ⟨chunk, category⟩ := s
  cases category with
  | none =>
    rw [segmentTokens, elementsFrom_content]
    exact Option.map_id'.symm
  | some c =>
    have hclass := classOf?_spanStart (styles c).cssClass
    have htokens : segmentTokens styles ⟨chunk, some c⟩ ++ rest =
        spanStart (styles c).cssClass :: (content chunk ++ .tag spanEnd :: rest) :=
      congrArg (spanStart (styles c).cssClass :: ·) (List.append_assoc _ _ _)
    rw [htokens, spanStart, elementsFrom, hclass]
    exact elementsFrom_content_spanEnd _ chunk rest

theorem elementsFrom_segments (styles : Category → Style) (segments : List Segment)
    (rest : List Token) :
    elementsFrom none (segments.flatMap (segmentTokens styles) ++ rest) =
      (elementsFrom none rest).map
        ((segments.filterMap Segment.marked).map (element styles) ++ ·) := by
  induction segments with
  | nil => exact Option.map_id'.symm
  | cons s segments ih =>
    rw [List.flatMap_cons, List.append_assoc, elementsFrom_segmentTokens, ih, Option.map_map,
      List.filterMap_cons]
    congr 1
    funext es
    cases s.marked <;> rfl

theorem elements_pageTokens {styles : Category → Style} {text : List Char} {spans : List Span}
    (h : Span.Laid text spans) :
    elements (pageTokens styles text spans) =
      some (spans.map (fun s => element styles (s.textIn text, s.category))) := by
  have hheader (rest : List Token) : elementsFrom none (headerTokens ++ rest) =
      elementsFrom none rest := rfl
  have hfooter : elementsFrom none footerTokens = some [] := rfl
  rw [elements, pageTokens, List.append_assoc, hheader, elementsFrom_segments, hfooter,
    Segment.marked_list h, Option.map_some, List.append_nil, List.map_map]
  rfl

/-- What is rendered, read again: the text without its tags, the spans with their classes, and no
other tags than theirs within the wrapper. -/
theorem exists_tokens_of_render (styles : Category → Style) (text : List Char) (spans : List Span)
    (h : Span.Laid text spans) :
    ∃ ts, Html.render (.full styles) text spans = .ok (ts.flatMap Token.write) ∧
      read (ts.flatMap Token.write) = some ts ∧
      unescape (ts.filterMap Token.char?) = some text ∧
      (∃ es, elements ts = some es ∧ es.map (fun e => (unescape e.1, unescape e.2)) =
        spans.map (fun s => (some (styles s.category).cssClass.toList, some (s.textIn text)))) ∧
      (ts.filter Token.isTag).map Token.write =
        ["<pre class=\"cm-yara\">".toList, "<code>".toList] ++
          spans.flatMap (fun s => [Html.openTag (styles s.category).cssClass, Html.closeTag]) ++
            ["</code>".toList, "</pre>".toList] := by
  refine ⟨pageTokens styles text spans, render_eq_write styles text spans,
    read_write (fun t => clean_of_mem_pageTokens), ?_, ?_, ?_⟩
  · rw [characters_pageTokens h]
    exact unescape_flatMap unescape_escape text
  · refine ⟨_, elements_pageTokens h, ?_⟩
    rw [List.map_map]
    apply List.map_congr_left
    intro s _
    have hclass := unescape_flatMap unescape_escapeAttribute (styles s.category).cssClass.toList
    have hcontent := unescape_flatMap unescape_escape (s.textIn text)
    exact congrArg₂ Prod.mk hclass hcontent
  · have hspans : (fun s : Span => [spanStart (styles s.category).cssClass, .tag spanEnd].map
        Token.write) = fun s => [Html.openTag (styles s.category).cssClass, Html.closeTag] := by
      funext s
      rw [List.map_cons, write_spanStart]
      rfl
    rw [tags_pageTokens h, List.map_append, List.map_append, List.map_flatMap, hspans]
    rfl

theorem exists_tokens_of_render_bracket :
    Span.Laid "a < b".toList [⟨⟨2, 3⟩, .operator⟩] ∧
      ∃ ts, Html.render (.full (fun _ => ⟨"\">", none, false, false⟩)) "a < b".toList
          [⟨⟨2, 3⟩, .operator⟩] = .ok (ts.flatMap Token.write) ∧
        read (ts.flatMap Token.write) = some ts ∧
        unescape (ts.filterMap Token.char?) = some "a < b".toList ∧
        ∃ es, elements ts = some es ∧
          es.map (fun e => (unescape e.1, unescape e.2)) = [(some "\">".toList, some ['<'])] := by
  have hspans : Span.Laid "a < b".toList [⟨⟨2, 3⟩, .operator⟩] :=
    ⟨by decide, by decide, by decide⟩
  obtain ⟨ts, hrender, hread, hchars, ⟨es, helements, hes⟩, -⟩ :=
    exists_tokens_of_render (fun _ => ⟨"\">", none, false, false⟩) _ _ hspans
  have hpiece : Range.textIn ⟨2, 3⟩ "a < b".toList = ['<'] := by decide
  refine ⟨hspans, ts, hrender, hread, hchars, es, helements, ?_⟩
  rw [hes, List.map_singleton, hpiece]

end Markup

end RuleHighlight
