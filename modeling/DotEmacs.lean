import DotEmacs.Company.Hooks
import DotEmacs.Elisp.Eval
import DotEmacs.Elisp.Object
import DotEmacs.Elisp.Variables
import DotEmacs.Company.Isolation
import DotEmacs.Company.Groups
import DotEmacs.Company.Registration
import DotEmacs.Company.WellFormed
import DotEmacs.Company.DabbrevSearch
import DotEmacs.Elisp.Alist
import DotEmacs.Frame.Transparency
import DotEmacs.Elisp.LinkedHeap
import DotEmacs.Latex.ViewerSelection
import DotEmacs.Elisp.Keymap
import DotEmacs.Keys.MinorModeKey
import DotEmacs.Comment.CommentBox
import DotEmacs.Keys.KeyBindingAtPoint
import DotEmacs.Company.Candidates
import DotEmacs.Company.MergeAsync
import DotEmacs.Company.Adapter
import DotEmacs.Company.Completion
import DotEmacs.Company.CompletionInvariant
import DotEmacs.Company.CompletionCandidates
import DotEmacs.Company.CompletionText
import DotEmacs.Company.SearchRegexp
import DotEmacs.Company.CompletionSearch
import DotEmacs.Elisp.Occurrences
import DotEmacs.Company.DabbrevBuffer
import DotEmacs.Company.CompletionSelection
