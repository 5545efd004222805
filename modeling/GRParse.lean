import GRParse.Layout.BodyOrder
import GRParse.Layout.Cuts
import GRParse.Layout.FurnitureTree
import GRParse.Document.SplitKeeps
import GRParse.Document.RunningFurniture
import GRParse.Document.FieldSources
import GRParse.Document.EmptyGroups
import GRParse.Chunking.StripTokenizer
import GRParse.Chunking.OneChunk
import GRParse.Chunking.Splitting
import GRParse.Scheduler.Wakeup
import GRParse.Scheduler.Credits
import GRParse.Scheduler.CallbackOrder
import GRParse.Stream.WriteDiscipline
import GRParse.Pool.ResourcePool
import GRParse.Targets.BundleArchive
import GRParse.Render.CanonicalForm
import GRParse.Assembly.MarkerMatch
import GRParse.Assembly.PlainText
import GRParse.Pdf.Outage
import GRParse.Pdf.Reconcile
import GRParse.Assembly.GridPartition
import GRParse.Assembly.TableTokens
import GRParse.Collectors.EpubHref
import GRParse.Collectors.WarcRecords
import GRParse.Collectors.TextBudget
import GRParse.Layout.SplitLinks
import GRParse.Assembly.RegionOverlaps
import GRParse.Render.LoadSafety
import GRParse.Workbook.Adoption
import GRParse.Embedding.AllOrNothing
import GRParse.Render.CustomFields
import GRParse.Render.EscapeXml
import GRParse.Render.Hyperlinks
import GRParse.Workbook.CellNames
import GRParse.Raster.DirectoryChain
import GRParse.Targets.UploadBundle
import GRParse.Confluence.RoundTrip
import GRParse.Confluence.DeepElements
import GRParse.Office.Furniture
import GRParse.Render.LatexTable
import GRParse.Confluence.InlineTrimming
import GRParse.Enrich.FirstAnswers
import GRParse.Headings.Bookmarks
import GRParse.Headings.SizeDepths
import GRParse.Export.PageRows
import GRParse.Export.DocsPayload
import GRParse.Headings.SizeBand
import GRParse.Workbook.IsoDates
