import Libedi.Parse
import Libedi.Scanner
import Libedi.Grammar
import Libedi.Build
import Libedi.Output
import Libedi.Text
import Libedi.Dialects
import Libedi.ReadBack
import Libedi.RoundTrip
import Libedi.Rebuild
import Libedi.X12
import Libedi.ParseErrors
import Libedi.Lib.LastWrite
import Libedi.Registry
import Libedi.KeptDialects
import Libedi.BuilderApi
import Libedi.PoolOwnership
import Libedi.Lookup
import Libedi.Convert
import Libedi.ConvertSteps
import Libedi.DataLoss
import Libedi.ConvertText
import Libedi.Lib.Tags
import Libedi.Balanced
import Libedi.Configured
import Libedi.Lib.Markup
import Libedi.Neutral
import Libedi.CharConv
import Libedi.Lib.Formatted
import Libedi.OutputBuffer
import Libedi.Lib.XmlTree
import Libedi.StructLoader
import Libedi.LoaderTables
import Libedi.LoaderElements
import Libedi.Chunks
import Libedi.Generated
import Libedi.SpecTables
import Libedi.Lib.TextWeight
import Libedi.Lib.StillMarkup
import Libedi.Unescaped
import Libedi.Agreement
import Libedi.Canonical
import Libedi.LineBreaks
import Libedi.Renaming
import Libedi.Truncation
import Libedi.Conforming
import Libedi.Charset
import Libedi.HeldMemory
import Libedi.LoadedInOrder
import Libedi.TitleNames
import Libedi.TrailerFormat
import Libedi.EscapedValues
import Libedi.ParseMemory
import Libedi.ParsePools
import Libedi.Lib.Blocks
import Libedi.OutOfMemory
import Libedi.PoolArrays
import Libedi.FreedStrings
import Libedi.BuilderFields
import Libedi.BuilderMemory
import Libedi.Lib.Entities
import Libedi.Lib.OpenElements
import Libedi.EscapeXml
import Libedi.LoaderPath
import Libedi.Lib.XmlWriter
import Libedi.Globals
import Libedi.Outcomes
import Libedi.Exceptions
import Libedi.CarriedOut
import Libedi.OutputDocument
import Libedi.BuiltDocument
import Libedi.XmlFiles
import Libedi.Directory
import Libedi.Lib.Monitor
import Libedi.Threads
import Libedi.Sessions
import Libedi.ErrorReport
import Libedi.Transcoding
import Libedi.Lib.CommandLine
import Libedi.Getopt
import Libedi.Program
