import TaggedHeap.Text.ClusterBreak

/-!
# Clusters

A text is cut into extended grapheme clusters, the pieces that a reader takes for one character. A
character goes on the cluster in front of it or begins a new one; which of the two it does hangs on
its class and those of the cluster so far. Cutting loses nothing and leaves no piece empty.
-/

namespace TaggedHeap

namespace ClusterBreak

/-- Characters that stand alone, apart from the two that end a line together. -/
def isSolitary : ClusterBreak → Bool
  | .cr | .lf | .control => true
  | _ => false

/-- Characters that go on any cluster. -/
def isMark : ClusterBreak → Bool
  | .extend | .linker | .zwnj | .zwj | .spacingMark => true
  | _ => false

/-- Marks that may stand between a pictograph and the joiner behind it. -/
def isExtender : ClusterBreak → Bool
  | .extend | .linker | .zwnj => true
  | _ => false

/-- Marks that may stand between the consonants of a conjunct. -/
def isConjunctMark : ClusterBreak → Bool
  | .extend | .linker | .zwj => true
  | _ => false

/-- Parts of one syllable of Hangul. -/
def inSyllable : ClusterBreak → ClusterBreak → Bool
  | .l, .l | .l, .v | .l, .lv | .l, .lvt => true
  | .lv, .v | .lv, .t | .v, .v | .v, .t => true
  | .lvt, .t | .t, .t => true
  | _, _ => false

/-- A consonant and marks behind it, a linker among them. The last class comes first. -/
def endsInLinkedConsonant (before : List ClusterBreak) : Bool :=
  (before.takeWhile isConjunctMark).contains .linker &&
    (before.dropWhile isConjunctMark).head? == some .consonant

/-- A pictograph, marks and a joiner. The last class comes first. -/
def endsInJoinedPictograph : List ClusterBreak → Bool
  | .zwj :: before => (before.dropWhile isExtender).head? == some .pictograph
  | _ => false

/-- Half a flag: an odd number of regional indicators. The last class comes first. -/
def endsInHalfFlag (before : List ClusterBreak) : Bool :=
  (before.takeWhile (· == .regionalIndicator)).length % 2 == 1

/-- Whether a character of class `next` goes on a cluster of the classes `before`, the last of them
first. -/
def goesOn (before : List ClusterBreak) (next : ClusterBreak) : Bool :=
  match before with
  | [] => false
  | last :: _ =>
    if last.isSolitary || next.isSolitary then last == .cr && next == .lf
    else next.isMark || last == .prepend || inSyllable last next ||
      next == .consonant && endsInLinkedConsonant before ||
      next == .pictograph && endsInJoinedPictograph before ||
      next == .regionalIndicator && endsInHalfFlag before

end ClusterBreak

/-- The clusters of a text that goes on a cluster of which some is read: its characters and their
classes, the last ones first. -/
def clustersAfter (cluster : List Char) (classes : List ClusterBreak) :
    List Char → List (List Char)
  | [] => [cluster.reverse]
  | c :: cs =>
    let next := ClusterBreak.ofChar c
    if ClusterBreak.goesOn classes next then clustersAfter (c :: cluster) (next :: classes) cs
    else cluster.reverse :: clustersAfter [c] [next] cs

def clusters : List Char → List (List Char)
  | [] => []
  | c :: cs => clustersAfter [c] [ClusterBreak.ofChar c] cs

theorem ne_nil_of_mem_clustersAfter {cluster : List Char} {classes : List ClusterBreak}
    {cs g : List Char} (hc : cluster ≠ []) (hg : g ∈ clustersAfter cluster classes cs) :
    g ≠ [] := by
  induction cs generalizing cluster classes with
  | nil => simp_all [clustersAfter]
  | cons c cs ih =>
    simp only [clustersAfter] at hg
    split at hg
    case isTrue => exact ih (List.cons_ne_nil _ _) hg
    case isFalse =>
      cases hg with
      | head => simpa using hc
      | tail _ hg => exact ih (List.cons_ne_nil _ _) hg

theorem ne_nil_of_mem_clusters {cs g : List Char} (hg : g ∈ clusters cs) : g ≠ [] := by
  cases cs with
  | nil => cases hg
  | cons c cs => exact ne_nil_of_mem_clustersAfter (List.cons_ne_nil _ _) hg

end TaggedHeap
